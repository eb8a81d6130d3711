import GateAsm.Proofs.Frame
import GateAsm.Proofs.Grammar.Instruction

/-!
# Instructions with an error

What an instruction changes before its operation is appended are inputs under names that were free
(`Block.Gains`). They are nobody's operands yet, so that taking them back never fails, and an instruction
with an error in it leaves the block as it was in front of it (`Block.Recovers`).
-/

namespace GateAsm

namespace Block

/-! ## Inputs taken back -/

/-- The block gained unused inputs, each under a name that was free; `es` are their names and numbers. -/
structure Gains (b : Block) (es : List (String × Nat)) (b' : Block) : Prop where
  values : b.values <+: b'.values
  others : b' = { b with
    values := b'.values, scope := b.scope ++ es.map (fun e => (.text e.1, e.2)), inputs := b.inputs ++ es.map (·.2) }
  unused : ∀ e ∈ es, ∃ v, b'.value? e.2 = some v ∧ v.name = .text e.1 ∧ v.uses = []
  free : ∀ e ∈ es, b.inScope? (.text e.1) = none
  distinct : (es.map (·.1)).Nodup

/-- The block is the one of before, except for values that are out of scope and stand in no list. -/
structure Recovers (b b' : Block) : Prop where
  operations : b'.operations = b.operations
  scope : b'.scope = b.scope
  values : b.values <+: b'.values
  inputs : b'.inputs = b.inputs
  anonymousCount : b'.anonymousCount = b.anonymousCount
  abandoned : b'.abandoned = b.abandoned

section
variable {b c d : Block} {es es' : List (String × Nat)} {n : String}

theorem value?_of_prefix (h : b.values <+: c.values) {id : Nat} {v : Value} (hv : b.value? id = some v) :
    c.value? id = some v := by
  obtain ⟨vs, hvs⟩ := h
  obtain ⟨hlt, -⟩ := List.getElem?_eq_some_iff.mp hv
  rw [value?, ← hvs, List.getElem?_append_left hlt]
  exact hv

theorem value?_eq_of_prefix (h : b.values <+: c.values) {id : Nat} (hid : id < b.values.length) :
    c.value? id = b.value? id := by
  have hv := Block.value?_of_lt hid
  rw [hv]
  exact value?_of_prefix h hv

theorem inScope?_eq_none_iff : b.inScope? (.text n) = none ↔ ∀ e ∈ b.scope, e.1.same (.text n) = false := by
  simp only [inScope?, Option.map_eq_none_iff, List.find?_eq_none, Bool.not_eq_true]

theorem Gains.scope_eq (h : b.Gains es c) : c.scope = b.scope ++ es.map fun e => (.text e.1, e.2) := by
  rw [h.others]

theorem Gains.inputs_eq (h : b.Gains es c) : c.inputs = b.inputs ++ es.map (·.2) := by
  rw [h.others]

theorem Gains.refl (b : Block) : b.Gains [] b := by
  refine ⟨List.prefix_refl _, ?_, nofun, nofun, List.nodup_nil⟩
  simp only [List.map_nil, List.append_nil]

theorem Gains.trans (h : b.Gains es c) (h' : c.Gains es' d) : b.Gains (es ++ es') d := by
  have taken : ∀ e ∈ es', ∀ x ∈ c.scope, x.1.same (.text e.1) = false := fun e he =>
    inScope?_eq_none_iff.mp (h'.free e he)
  refine ⟨h.values.trans h'.values, ?_, ?_, ?_, ?_⟩
  · rw [h'.others, h.others]
    simp only [List.map_append, List.append_assoc]
  · intro e he
    rcases List.mem_append.mp he with he | he
    · obtain ⟨v, hv, known⟩ := h.unused e he
      exact ⟨v, value?_of_prefix h'.values hv, known⟩
    · exact h'.unused e he
  · intro e he
    rcases List.mem_append.mp he with he | he
    · exact h.free e he
    · refine inScope?_eq_none_iff.mpr fun x hx => taken e he x ?_
      rw [h.scope_eq]
      exact List.mem_append_left _ hx
  · rw [List.map_append, List.nodup_append]
    refine ⟨h.distinct, h'.distinct, ?_⟩
    intro x hx y hy same
    obtain ⟨e, he, rfl⟩ := List.mem_map.mp hx
    obtain ⟨e', he', rfl⟩ := List.mem_map.mp hy
    have inside : (Label.text e.1, e.2) ∈ c.scope := by
      rw [h.scope_eq]
      exact List.mem_append_right _ (List.mem_map_of_mem (f := fun e => (Label.text e.1, e.2)) he)
    have differ := taken e' he' _ inside
    rw [same_text_iff.mpr (congrArg Label.text same)] at differ
    cases differ

theorem gains_addInput {t : Attr} {id : Nat} (h : b.addInput (some (.text n)) t = .ok (id, c)) :
    b.Gains [(n, id)] c := by
  have hfree : b.inScope? (.text n) = none := by
    cases taken : b.inScope? (.text n) with
    | none => rfl
    | some other => simp [addInput, addValue, Label.isKey, taken, Except.map] at h
  simp only [addInput, addValue, Label.isKey, hfree, Except.map, enter] at h
  cases h
  refine ⟨List.prefix_append _ _, rfl, ?_, ?_, by simp⟩
  · intro e he
    obtain rfl := List.mem_singleton.mp he
    exact ⟨⟨.text n, t, none, []⟩, by simp [value?], rfl, rfl⟩
  · intro e he
    obtain rfl := List.mem_singleton.mp he
    exact hfree

theorem removeInputs_entries {scope : List (Label × Nat)} (hscope : b.scope = scope ++ es.map fun e => (.text e.1, e.2))
    (hu : ∀ e ∈ es, ∃ v, b.value? e.2 = some v ∧ v.name = .text e.1 ∧ v.uses = [])
    (hfree : ∀ e ∈ es, ∀ x ∈ scope, x.1.same (.text e.1) = false) (hd : (es.map (·.1)).Nodup) :
    b.removeInputs (es.map (·.2)) = (.ok (), { b with scope := scope }) := by
  induction es generalizing b with
  | nil =>
    rw [List.map_nil, List.append_nil] at hscope
    simp only [List.map_nil, removeInputs, ← hscope]
  | cons e es ih =>
    obtain ⟨v, hv, hname, huses⟩ := hu e List.mem_cons_self
    obtain ⟨hlater, hd⟩ := List.nodup_cons.mp hd
    have named : b.nameOf e.2 = .text e.1 := by rw [nameOf, hv]; exact hname
    have inside : b.inScope? (.text e.1) ≠ none := by
      intro hnone
      have := inScope?_eq_none_iff.mp hnone (.text e.1, e.2) (by rw [hscope]; simp)
      rw [same_text_iff.mpr rfl] at this
      cases this
    have filtered : b.scope.filter (fun x => !x.1.same (.text e.1)) = scope ++ es.map fun e => (.text e.1, e.2) := by
      rw [hscope, List.map_cons, List.filter_append, List.filter_cons_of_neg (by simp)]
      congr 1
      · exact List.filter_eq_self.mpr fun x hx => by rw [hfree e List.mem_cons_self x hx]; rfl
      · refine List.filter_eq_self.mpr fun x hx => ?_
        obtain ⟨e', he', rfl⟩ := List.mem_map.mp hx
        have differ : e'.1 ≠ e.1 := fun same => hlater (List.mem_map.mpr ⟨e', he', same⟩)
        simpa [same_text_iff] using differ
    rw [List.map_cons, removeInputs]
    simp only [hv, huses, named, filtered, Option.map_some, Option.getD_some, List.isEmpty_nil, Bool.true_eq_false,
      if_false, Option.isNone_iff_eq_none, inside]
    exact ih rfl (fun e he => hu e (List.mem_cons_of_mem _ he)) (fun e he => hfree e (List.mem_cons_of_mem _ he)) hd

/-- The inputs that were gained can be taken back, and then the block is the one of before. -/
theorem Gains.discardInputs (h : b.Gains es c) :
    (c.discardInputs b.inputs.length).1 = .ok () ∧ b.Recovers (c.discardInputs b.inputs.length).2 := by
  have kept : boundIn c.inputs.length (b.inputs.length : Int) = b.inputs.length := by
    rw [boundIn_natCast, h.inputs_eq, List.length_append]
    omega
  have removed := removeInputs_entries h.scope_eq h.unused
    (fun e he => inScope?_eq_none_iff.mp (h.free e he)) h.distinct
  have dropped : c.inputs.drop b.inputs.length = es.map (·.2) := by rw [h.inputs_eq, List.drop_left]
  have taken : c.inputs.take b.inputs.length = b.inputs := by rw [h.inputs_eq, List.take_left]
  have result : c.discardInputs b.inputs.length = (.ok (), { c with scope := b.scope, inputs := b.inputs }) := by
    simp only [Block.discardInputs, kept, dropped, removed, taken]
  rw [result]
  have others := h.others
  refine ⟨rfl, ?_, rfl, h.values, rfl, ?_, ?_⟩
  · show c.operations = b.operations
    rw [others]
  · show c.anonymousCount = b.anonymousCount
    rw [others]
  · show c.abandoned = b.abandoned
    rw [others]

end

end Block

namespace Parser

/-! ## Errors in front of the operation -/

def Gained (s t : ParserState) : Prop := ∃ es, s.block.Gains es t.block

theorem frame_gained : Frame Gained where
  refl s := ⟨[], .refl _⟩
  trans := by
    intro s t u h h'
    obtain ⟨es, h⟩ := h
    obtain ⟨es', h'⟩ := h'
    exact ⟨es ++ es', h.trans h'⟩
  consume s := ⟨[], .refl _⟩
  report s _ := ⟨[], .refl _⟩
  record s _ := ⟨[], .refl _⟩
  context s _ _ _ := ⟨[], .refl _⟩
  tags s _ := ⟨[], .refl _⟩
  input s n t _ id b h := ⟨[(n, id)], Block.gains_addInput h⟩

/-- A parser that stops with an error in the text leaves a related state. -/
def Spares {α : Type} (R : ParserState → ParserState → Prop) (p : Parser α) : Prop :=
  ∀ s e t, p s = (.error (.error e), t) → R s t

section
variable {R : ParserState → ParserState → Prop} {α β : Type}

theorem Frame.bindSpares (hR : Frame R) {p : Parser α} {f : α → Parser β} (hp : Keeps R p)
    (hf : ∀ a, Spares R (f a)) : Spares R (p >>= f) := by
  intro s e t h
  have first := hp s
  rw [bind_apply] at h
  cases hps : p s with
  | mk answer u =>
    rw [hps] at h first
    cases answer with
    | error e' => cases h; exact first
    | ok a => exact hR.trans first (hf a u e t h)

theorem spares_changeBlock_bind {f : Block → Except BlockFault α × Block} {g : α → Parser β}
    (hg : ∀ a s, (g a s).1.isOk) : Spares R (changeBlock f >>= g) := by
  intro s e t h
  rw [bind_apply, changeBlock_apply] at h
  cases hf : (f s.block).1 with
  | error e' => rw [hf] at h; cases h
  | ok a =>
    rw [hf] at h
    have answers := hg a (s.withBlock (f s.block).2)
    rw [show g a (s.withBlock (f s.block).2) = (.error (.error e), t) from h] at answers
    cases answers

end

/-- The body of an instruction fails with an error in the text only in front of its operation. -/
theorem spares_instructionBody (env : ParserEnv) (expected : Option Kind) :
    Spares Gained (instructionBody env expected) := by
  have hR := frame_gained
  refine hR.bindSpares hR.resultNames fun names => hR.bindSpares (hR.mnemonic env expected) fun kind =>
    hR.bindSpares (hR.operationBody env kind) fun state => hR.bindSpares (hR.checkResultCount _ names) fun _ =>
    hR.bindSpares (hR.checkResultNames [] names) fun _ => ?_
  exact spares_changeBlock_bind fun _ _ => rfl

theorem withFreshTags_apply {α : Type} (p : Parser α) (s : ParserState) :
    withFreshTags p s = ((p (s.withTags [])).1, (p (s.withTags [])).2.withTags s.tags) := rfl

/-- The error of a body is the error of its instruction: giving the inputs back does not fail. -/
theorem instruction_of_body_error {env : ParserEnv} {expected : Option Kind} {s u : ParserState} {e : ParseError}
    (h : instructionBody env expected (s.withTags []) = (.error (.error e), u)) :
    ∃ t, instruction env expected s = (.error (.error e), t) ∧ s.block.Recovers t.block ∧
      t.diagnostics = u.diagnostics := by
  obtain ⟨es, hgains⟩ := spares_instructionBody env expected _ _ _ h
  obtain ⟨accepted, recovers⟩ := hgains.discardInputs
  unfold instruction
  rw [get_bind_apply, tryCatch_apply, withFreshTags_apply, h]
  simp only [bind_apply, changeBlock_apply]
  rw [show (u.withTags s.tags).block = u.block from rfl, show s.block.inputs = (s.withTags []).block.inputs from rfl,
    accepted]
  exact ⟨_, rfl, recovers, rfl⟩

theorem instruction_of_error {env : ParserEnv} {expected : Option Kind} {s t : ParserState} {e : ParseError}
    (h : instruction env expected s = (.error (.error e), t)) :
    ∃ u, instructionBody env expected (s.withTags []) = (.error (.error e), u) := by
  cases hbody : instructionBody env expected (s.withTags []) with
  | mk answer u =>
    cases answer with
    | error cause =>
      cases cause with
      | error e' =>
        obtain ⟨t', ht, -, -⟩ := instruction_of_body_error hbody
        rw [ht] at h
        cases h
        exact ⟨u, rfl⟩
      | _ =>
        unfold instruction at h
        rw [get_bind_apply, tryCatch_apply, withFreshTags_apply, hbody] at h
        cases h
    | ok n =>
      rw [show instruction env expected s = _ from yields_instruction.mpr ⟨u, hbody, rfl⟩] at h
      cases h

theorem instruction_error {env : ParserEnv} {expected : Option Kind} {s t : ParserState} {e : ParseError}
    (h : instruction env expected s = (.error (.error e), t)) : s.block.Recovers t.block := by
  obtain ⟨u, hbody⟩ := instruction_of_error h
  obtain ⟨t', ht, recovers, -⟩ := instruction_of_body_error hbody
  rw [ht] at h
  cases h
  exact recovers

/-! ## Modules -/

def firstInstructions (env : ParserEnv) : (n : Nat) → Parser Unit
  | 0 => return
  | n + 1 => do
    let _ ← instruction env none
    firstInstructions env n

theorem instructions_succ (env : ParserEnv) (fuel : Nat) (s : ParserState) :
    instructions env (fuel + 1) s =
      if nextKind s.rest = .endOfText then (.ok (), s)
      else (instruction env none >>= fun _ => instructions env fuel) s := by
  simp only [instructions, atEnd, bind_assoc, pure_bind]
  show (if _ then _ else _ : Parser Unit) s = _
  rw [kind_ahead_zero]
  by_cases last : nextKind s.rest = .endOfText
  · rw [if_pos (decide_eq_true last), if_pos last]; rfl
  · rw [if_neg (by simpa using last), if_neg last]

namespace Frame

variable {R : ParserState → ParserState → Prop} (hR : Frame R) (hblock : ∀ s b, R s (s.withBlock b))
include hR hblock

/-- What does not look at the block is kept by whole instructions, too. -/
theorem instructionBody (env : ParserEnv) (expected : Option Kind) : Keeps R (instructionBody env expected) :=
  hR.bind hR.resultNames fun names => hR.bind (hR.mnemonic env expected) fun kind =>
    hR.bind (hR.operationBody env kind) fun _ => hR.bind (hR.checkResultCount _ names) fun _ =>
    hR.bind (hR.checkResultNames [] names) fun _ => hR.bind (fun s => changeBlock (hblock s _)) fun op =>
    hR.bind (hR.recordEvent _) fun _ => hR.pure op

theorem instruction (env : ParserEnv) (expected : Option Kind) : Keeps R (instruction env expected) := by
  intro s
  have body := hR.trans (hR.tags s []) (hR.instructionBody hblock env expected (s.withTags []))
  unfold Parser.instruction
  rw [get_bind_apply, tryCatch_apply, withFreshTags_apply]
  cases h : Parser.instructionBody env expected (s.withTags []) with
  | mk answer u =>
    rw [h] at body
    have restored : R s (u.withTags s.tags) := hR.trans body (hR.tags u s.tags)
    cases answer with
    | ok op => exact restored
    | error e =>
      cases e with
      | error e =>
        exact hR.trans restored (hR.bind (fun v => changeBlock (hblock v _)) (fun _ => hR.throw _) (u.withTags s.tags))
      | _ => exact restored

theorem instructions (env : ParserEnv) (fuel : Nat) : Keeps R (instructions env fuel) := by
  induction fuel with
  | zero => exact hR.pure ()
  | succ fuel ih =>
    intro s
    rw [instructions_succ]
    split
    · exact hR.refl s
    · exact hR.bind (hR.instruction hblock env none) (fun _ => ih) s

end Frame

theorem instructions_error {env : ParserEnv} {fuel : Nat} {s t : ParserState} {e : ParseFailure}
    (h : instructions env fuel s = (.error e, t)) :
    ∃ n u, Yields (firstInstructions env n) s () u ∧ instruction env none u = (.error e, t) := by
  induction fuel generalizing s with
  | zero => cases h
  | succ fuel ih =>
    rw [instructions_succ] at h
    split at h
    · cases h
    · rw [bind_apply] at h
      cases hi : instruction env none s with
      | mk answer u =>
        rw [hi] at h
        cases answer with
        | error e' =>
          cases h
          exact ⟨0, s, rfl, hi⟩
        | ok op =>
          obtain ⟨n, v, hfirst, hlast⟩ := ih h
          refine ⟨n + 1, v, ?_, hlast⟩
          rw [firstInstructions, yields_bind]
          exact ⟨op, u, hi, hfirst⟩

end Parser

/-- **An error commits nothing of its instruction.** A text that is no row of tokens leaves the block
alone. An error in a module is the error of one of its instructions, and the block that is left is the one
that the instructions in front of it made; so is the block that a single instruction with an error leaves. -/
theorem Reading.error_recovers (env : ParserEnv) (text : String) (c : TypeContext) (b : Block) :
    (∀ stray, TokenStream.ofText text = .error stray →
      ∀ (α : Type) (p : Parser α), (Reading.run p text c b).block = b) ∧
    (∀ tokens e, TokenStream.ofText text = .ok tokens → (Reading.module env text c b).answer = .error (.error e) →
      ∃ n s, Parser.Yields (Parser.firstInstructions env n) (.start tokens c b) () s ∧
        (Parser.instruction env none s).1 = .error (.error e) ∧
        s.block.Recovers (Reading.module env text c b).block) ∧
    (∀ expected s e t, Parser.instruction env expected s = (.error (.error e), t) → s.block.Recovers t.block) := by
  refine ⟨?_, ?_, fun _ _ _ _ h => Parser.instruction_error h⟩
  · intro stray h α p
    simp only [run, h]
  · intro tokens e h herr
    unfold Reading.module run at *
    rw [h] at herr ⊢
    dsimp only at herr ⊢
    cases hm : Parser.module env (.start tokens c b) with
    | mk answer t =>
      rw [hm] at herr
      obtain rfl : answer = .error (.error e) := herr
      obtain ⟨n, s, hfirst, hlast⟩ := Parser.instructions_error
        (show Parser.instructions env tokens.tokens.length (.start tokens c b) = _ from hm)
      exact ⟨n, s, hfirst, congrArg Prod.fst hlast, Parser.instruction_error hlast⟩

def brokenSecond : String := "%q = quantum.alloc -> qubit\nquantum.cx %q, %r : qubit, qubit -> 5"

def isParseError {α : Type} : Except ParseFailure α → Bool
  | .error (.error _) => true
  | _ => false

theorem exists_of_isParseError {α : Type} {x : Except ParseFailure α} (h : isParseError x = true) :
    ∃ e, x = .error (.error e) := by
  unfold isParseError at h
  split at h
  · exact ⟨_, rfl⟩
  · cases h

/-- The first instruction stays, and the name that only the second one used is given back. -/
theorem Reading.error_recovers_brokenSecond :
    (Reading.module ⟨.standard, false⟩ "$" .default .empty).block = .empty ∧
      ∃ tokens n s, TokenStream.ofText brokenSecond = .ok tokens ∧
        Parser.Yields (Parser.firstInstructions ⟨.standard, false⟩ n) (.start tokens .default .empty) () s ∧
        s.block.Recovers (Reading.module ⟨.standard, false⟩ brokenSecond .default .empty).block ∧
        s.block.Recovers (Parser.instruction ⟨.standard, false⟩ none s).2.block ∧
        (Reading.module ⟨.standard, false⟩ brokenSecond .default .empty).block.scope.map (·.1.text?) = [some "%q"] := by
  obtain ⟨unread, -, -⟩ := Reading.error_recovers ⟨.standard, false⟩ "$" .default .empty
  obtain ⟨-, module, instruction⟩ := Reading.error_recovers ⟨.standard, false⟩ brokenSecond .default .empty
  obtain ⟨stray, hstray⟩ : ∃ stray, TokenStream.ofText "$" = .error stray := by
    have : (TokenStream.ofText "$").isOk = false := by decide +kernel
    cases h : TokenStream.ofText "$" with
    | error stray => exact ⟨stray, rfl⟩
    | ok tokens => rw [h] at this; cases this
  obtain ⟨tokens, htokens⟩ : ∃ tokens, TokenStream.ofText brokenSecond = .ok tokens := by
    have : (TokenStream.ofText brokenSecond).isOk = true := by decide +kernel
    cases h : TokenStream.ofText brokenSecond with
    | error stray => rw [h] at this; cases this
    | ok tokens => exact ⟨tokens, rfl⟩
  have fails : isParseError (Reading.module ⟨.standard, false⟩ brokenSecond .default .empty).answer = true := by
    decide +kernel
  obtain ⟨e, he⟩ := exists_of_isParseError fails
  obtain ⟨n, s, first, second, recovers⟩ := module tokens e htokens he
  refine ⟨unread stray hstray Unit _, tokens, n, s, htokens, first, recovers, ?_, ?_⟩
  · exact instruction none s e (Parser.instruction ⟨.standard, false⟩ none s).2 (Prod.ext second rfl)
  · decide +kernel

end GateAsm
