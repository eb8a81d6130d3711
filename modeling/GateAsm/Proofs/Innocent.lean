import GateAsm.Proofs.Grammar.Instruction
import GateAsm.Proofs.Rollback

/-!
# Errors about names

An instruction that stops with an error about the name of a value does so where its operands are bound, or
where the names of its results are checked. `Parser.Innocent` says of a parser that it has no such errors;
each building block of parsers but those two has one lemma here.
-/

namespace GateAsm

/-- The cause is not one about the name of a value. -/
def ParseCause.Other : ParseCause → Prop
  | redefinition _ | typeConflict .. => False
  | _ => True

namespace Parser

/-- No error that the parser stops with is about the name of a value. -/
def Innocent {α : Type} (p : Parser α) : Prop := ∀ s e t, p s = (.error (.error e), t) → e.cause.Other

section
variable {α β : Type}

/-! ## Control -/

theorem innocent_of_yields {p : Parser α} (h : ∀ s, ∃ a t, Yields p s a t) : Innocent p := by
  intro s e t ht
  obtain ⟨a, u, hy⟩ := h s
  rw [show p s = _ from hy] at ht
  cases ht

theorem innocent_pure (a : α) : Innocent (pure a : Parser α) := innocent_of_yields fun _ => ⟨_, _, rfl⟩

theorem innocent_throw {f : ParseFailure} (h : ∀ e, f ≠ .error e) : Innocent (throw f : Parser α) := by
  intro s e t ht
  cases ht
  exact absurd rfl (h e)

theorem Innocent.bind {p : Parser α} {f : α → Parser β} (hp : Innocent p) (hf : ∀ a, Innocent (f a)) :
    Innocent (p >>= f) := by
  intro s e t h
  rcases bind_eq_error.mp h with h | ⟨a, u, -, h⟩
  · exact hp s e t h
  · exact hf a u e t h

theorem Innocent.map {p : Parser α} (hp : Innocent p) (f : α → β) : Innocent (f <$> p) := by
  rw [map_eq_pure_bind]
  exact hp.bind fun a => innocent_pure (f a)

theorem innocent_ite {c : Prop} [Decidable c] {p q : Parser α} (hp : Innocent p) (hq : Innocent q) :
    Innocent (if c then p else q) := by
  split
  · exact hp
  · exact hq

theorem innocent_get : Innocent (get : Parser ParserState) := innocent_of_yields fun _ => ⟨_, _, rfl⟩

theorem innocent_modify (f : ParserState → ParserState) : Innocent (modify f : Parser PUnit) :=
  innocent_of_yields fun _ => ⟨_, _, rfl⟩

/-! ## Single tokens -/

theorem innocent_peek (n : Nat) : Innocent (peek n) := innocent_get.bind fun s => innocent_pure (s.ahead n)

theorem innocent_advance : Innocent advance := innocent_of_yields fun _ => ⟨_, _, rfl⟩

theorem innocent_location : Innocent location := (innocent_peek 0).bind fun t => innocent_pure t.location

theorem innocent_fail {cause : ParseCause} (l : Location) (h : cause.Other) : Innocent (fail cause l : Parser α) := by
  intro s e t ht
  cases ht
  exact h

theorem innocent_require (ok : Bool) {cause : ParseCause} (l : Location) (h : cause.Other) :
    Innocent (require ok cause l) := innocent_ite (innocent_pure ()) (innocent_fail l h)

theorem innocent_record (e : Event) : Innocent (record e) := innocent_modify _

theorem innocent_optional (k : TokenKind) : Innocent (optional k) :=
  (innocent_peek 0).bind fun _ =>
    innocent_ite (innocent_advance.bind fun t => innocent_pure (some t)) (innocent_pure none)

theorem other_missing (k : TokenKind) (wanted : String) (found : Token) : (missing k wanted found).Other := by
  unfold missing
  split
  · trivial
  · trivial

theorem innocent_expectAs (k : TokenKind) (wanted : String) : Innocent (expectAs k wanted) :=
  (innocent_peek 0).bind fun _ => innocent_ite innocent_advance (innocent_fail _ (other_missing _ _ _))

theorem innocent_expect (k : TokenKind) : Innocent (expect k) := innocent_expectAs k _

theorem innocent_intern (t : Ty) : Innocent (intern t) :=
  innocent_of_yields fun _ => ⟨_, _, yields_intern.mpr ⟨rfl, rfl⟩⟩

theorem innocent_integerOf (t : Token) : Innocent (integerOf t) := by
  unfold integerOf
  exact innocent_ite (innocent_throw (by simp)) (innocent_pure _)

/-! ## Types -/

theorem innocent_malformed (keyword : String) : Innocent (malformed keyword : Parser α) :=
  innocent_location.bind fun l => innocent_fail l trivial

theorem innocent_argumentToken (keyword : String) (k : TokenKind) : Innocent (argumentToken keyword k) :=
  (innocent_optional k).bind fun _ => innocent_ite (innocent_malformed keyword) (innocent_pure _)

theorem innocent_registerArguments (keyword : String) : Innocent (registerArguments keyword) := by
  refine (innocent_argumentToken keyword _).bind fun _ => (innocent_optional _).bind fun size =>
    (innocent_argumentToken keyword _).bind fun _ => ?_
  cases size with
  | none => exact innocent_intern _
  | some t => exact (innocent_integerOf t).bind fun n => innocent_ite (innocent_fail _ trivial) (innocent_intern _)

theorem innocent_controlPrefix (keyword : String) : Innocent (controlPrefix keyword) := by
  refine (innocent_optional _).bind fun o => ?_
  cases o with
  | none => exact innocent_pure _
  | some t => exact (innocent_argumentToken keyword _).bind fun _ => innocent_pure _

theorem innocent_wordAhead (keyword : String) : Innocent (wordAhead keyword) :=
  (innocent_peek 0).bind fun _ => innocent_ite (innocent_malformed keyword) (innocent_pure _)

theorem innocent_optionalCount (keyword : String) (o : Option Token) : Innocent (optionalCount keyword o) := by
  cases o with
  | none => exact innocent_pure _
  | some t =>
    refine Innocent.map ?_ some
    exact (innocent_integerOf t).bind fun _ => innocent_ite (innocent_fail _ trivial) (innocent_pure _)

theorem innocent_controlledType (base : Ty) (count : Option Nat) (l : Location) :
    Innocent (controlledType base count l) := by
  unfold controlledType
  split
  · exact innocent_intern _
  · exact innocent_fail l trivial

theorem innocent_controlledArguments (keyword : String) {inner : Parser Ty} (hi : Innocent inner) :
    Innocent (controlledArguments keyword inner) :=
  (innocent_argumentToken keyword _).bind fun _ => (innocent_controlPrefix keyword).bind fun count =>
    (innocent_wordAhead keyword).bind fun _ => hi.bind fun base => (innocent_argumentToken keyword _).bind fun _ =>
    (innocent_optionalCount keyword count).bind fun n => innocent_controlledType base n _

theorem innocent_typeAt (r : Registry) (t : Token) {inner : Parser Ty} (hi : Innocent inner) :
    Innocent (typeAt r t inner) := by
  unfold typeAt
  split
  · exact innocent_intern _
  · split
    · exact innocent_fail _ trivial
    · exact innocent_intern _
    · exact innocent_intern _
    · exact innocent_intern _
    · exact innocent_intern _
    · exact innocent_registerArguments _
    · exact innocent_controlledArguments _ hi

theorem innocent_typeWithin (r : Registry) (fuel : Nat) : Innocent (typeWithin r fuel) := by
  induction fuel with
  | zero => exact (innocent_peek 0).bind fun t => innocent_fail _ trivial
  | succ fuel ih =>
    exact (innocent_peek 0).bind fun t => innocent_ite (innocent_fail _ trivial)
      (innocent_advance.bind fun _ => innocent_typeAt r t ih)

theorem innocent_typeExpr (r : Registry) : Innocent (typeExpr r) :=
  innocent_get.bind fun s => innocent_typeWithin r s.rest.length

theorem innocent_moreTypes (r : Registry) (fuel : Nat) : Innocent (moreTypes r fuel) := by
  induction fuel with
  | zero => exact innocent_pure _
  | succ fuel ih =>
    exact (innocent_optional _).bind fun _ => innocent_ite (innocent_pure _)
      ((innocent_typeExpr r).bind fun t => ih.bind fun ts => innocent_pure (t :: ts))

theorem innocent_typeList (r : Registry) : Innocent (typeList r) :=
  (innocent_typeExpr r).bind fun t => innocent_get.bind fun s => (innocent_moreTypes r s.rest.length).bind fun ts =>
    innocent_pure (t :: ts)

theorem innocent_arrowTypes (r : Registry) : Innocent (arrowTypes r) :=
  (innocent_optional _).bind fun _ => innocent_ite (innocent_pure _) (innocent_typeList r)

theorem innocent_countedTypes (r : Registry) (expected : Nat) : Innocent (countedTypes r expected) :=
  innocent_location.bind fun _ => ((innocent_optional _).bind fun _ => innocent_ite (innocent_pure _)
    (innocent_typeList r)).bind fun types => Innocent.bind (innocent_require _ _ trivial) fun _ =>
    innocent_pure types

/-! ## Literals and tags -/

theorem innocent_optionalOperand : Innocent optionalOperand := (innocent_optional _).bind fun _ => innocent_pure _

theorem innocent_operand : Innocent operand := (innocent_expect _).bind fun _ => innocent_pure _

theorem innocent_symbol : Innocent symbol := (innocent_expect _).bind fun _ => innocent_pure _

theorem innocent_integer (wanted : String) : Innocent (integer wanted) :=
  (innocent_expectAs _ wanted).bind fun t => innocent_integerOf t

theorem innocent_finiteFloat (t : Token) : Innocent (finiteFloat t) := by
  unfold finiteFloat
  split
  · exact innocent_ite (innocent_pure _) (innocent_fail _ trivial)
  · exact innocent_fail _ trivial

theorem innocent_optionalFloat : Innocent optionalFloat :=
  (innocent_peek 0).bind fun t => innocent_ite
    (innocent_advance.bind fun _ => (innocent_finiteFloat t).bind fun x => innocent_pure (some x)) (innocent_pure none)

theorem innocent_literals (fuel : Nat) : Innocent (literalWithin fuel) ∧ Innocent (literalsWithin fuel) := by
  induction fuel with
  | zero => exact ⟨(innocent_peek 0).bind fun t => innocent_fail _ trivial, innocent_pure _⟩
  | succ fuel ih =>
    obtain ⟨one, more⟩ := ih
    constructor
    · refine (innocent_peek 0).bind fun t => ?_
      split
      · exact innocent_advance.bind fun _ => (innocent_integerOf t).bind fun n => innocent_pure _
      · exact innocent_advance.bind fun _ => (innocent_finiteFloat t).bind fun x => innocent_pure _
      · refine innocent_advance.bind fun _ => ?_
        split
        · exact innocent_pure _
        · exact innocent_fail _ trivial
      · exact innocent_symbol.bind fun n => innocent_pure _
      · exact innocent_advance.bind fun _ => (innocent_optional _).bind fun _ => innocent_ite (innocent_pure _)
          (one.bind fun first => more.bind fun others => (innocent_expect _).bind fun _ => innocent_pure _)
      · exact innocent_ite (innocent_advance.bind fun _ => innocent_pure _) (innocent_fail _ trivial)
      · exact innocent_fail _ trivial
    · exact (innocent_optional _).bind fun _ => innocent_ite (innocent_pure _)
        (one.bind fun first => more.bind fun others => innocent_pure _)

theorem innocent_literal : Innocent literal := innocent_get.bind fun s => (innocent_literals s.rest.length).1

theorem innocent_tagEntries (reserved : List String) (fuel : Nat) : Innocent (tagEntries reserved fuel) := by
  induction fuel with
  | zero => exact (innocent_expectAs _ _).bind fun _ => innocent_pure _
  | succ fuel ih =>
    refine (innocent_expectAs _ _).bind fun t => innocent_ite (innocent_fail _ trivial)
      (innocent_get.bind fun s => innocent_ite (innocent_fail _ trivial) ?_)
    refine (innocent_expect _).bind fun _ => innocent_literal.bind fun value => (innocent_modify _).bind fun _ =>
      (innocent_optional _).bind fun _ => innocent_ite ih ?_
    exact (innocent_expect _).bind fun _ => innocent_pure _

theorem innocent_optionalTags (reserved : List String) : Innocent (optionalTags reserved) :=
  (innocent_optional _).bind fun _ => innocent_ite (innocent_pure _) ((innocent_optional _).bind fun _ =>
    innocent_ite (innocent_pure _) (innocent_get.bind fun s => innocent_tagEntries reserved s.rest.length))

/-! ## Operands -/

theorem innocent_component : Innocent component := by
  refine innocent_optionalOperand.bind fun o => ?_
  cases o with
  | some r => exact innocent_pure _
  | none =>
    refine (innocent_peek 0).bind fun t => innocent_ite (innocent_fail _ trivial)
      ((innocent_integerOf t).bind fun n => innocent_ite ?_ (innocent_fail _ trivial))
    exact innocent_advance.bind fun _ => innocent_pure _

theorem innocent_components (room : Nat) : Innocent (components room) := by
  induction room with
  | zero => exact innocent_pure _
  | succ room ih =>
    exact innocent_component.bind fun c => innocent_ite (innocent_pure _) ((innocent_optional _).bind fun _ =>
      innocent_ite (innocent_pure _) (ih.bind fun cs => innocent_pure (c :: cs)))

theorem innocent_accessorList : Innocent accessorList :=
  (innocent_optional _).bind fun _ => innocent_ite (innocent_pure _) ((innocent_optional _).bind fun _ =>
    innocent_ite (innocent_pure _)
      ((innocent_components _).bind fun _ => (innocent_expect _).bind fun _ => innocent_pure _))

theorem innocent_slotOperands (kind : Kind) (slots : List Slot) (r : Reference) :
    Innocent (slotOperands kind slots r) := by
  induction slots generalizing r with
  | nil => exact innocent_fail _ trivial
  | cons slot slots ih =>
    exact (show Innocent (slotAccessor slot) from innocent_ite innocent_accessorList (innocent_pure _)).bind fun _ =>
      (innocent_optional _).bind fun _ => innocent_ite (innocent_pure _)
        (innocent_operand.bind fun next => (ih next).bind fun others => innocent_pure _)

theorem innocent_operandList (kind : Kind) : Innocent (operandList kind) := by
  refine innocent_optionalOperand.bind fun o => ?_
  cases o with
  | none => exact innocent_pure _
  | some r => exact innocent_slotOperands kind _ r

theorem innocent_angleInside (env : ParserEnv) (kind : Kind) : Innocent (angleInside env kind) := by
  refine innocent_optionalFloat.bind fun x => ?_
  cases x with
  | some x => exact innocent_pure _
  | none =>
    refine innocent_optionalOperand.bind fun o => ?_
    cases o with
    | some r => exact innocent_pure _
    | none =>
      exact innocent_location.bind fun l => innocent_ite ((innocent_modify _).bind fun _ =>
        (innocent_record _).bind fun _ => innocent_pure _) (innocent_fail l trivial)

theorem innocent_optionalAngle (env : ParserEnv) (kind : Kind) : Innocent (optionalAngle env kind) :=
  innocent_ite ((innocent_optional _).bind fun _ => innocent_ite (innocent_pure _)
    ((innocent_angleInside env kind).bind fun found => (innocent_expect _).bind fun _ => innocent_pure found))
    (innocent_pure _)

theorem innocent_arguments (fuel : Nat) : Innocent (arguments fuel) := by
  induction fuel with
  | zero => exact innocent_pure _
  | succ fuel ih =>
    exact (innocent_optional _).bind fun _ => innocent_ite (innocent_pure _) (innocent_operand.bind fun _ =>
      innocent_accessorList.bind fun _ => ih.bind fun _ => innocent_pure _)

theorem innocent_checkSegments (sizes : List Nat) : Innocent (checkSegments sizes) :=
  innocent_ite (innocent_pure _) (innocent_throw (by simp))

/-! ## Instructions -/

theorem innocent_moreResultNames (fuel : Nat) : Innocent (moreResultNames fuel) := by
  induction fuel with
  | zero => exact innocent_pure _
  | succ fuel ih =>
    exact (innocent_optional _).bind fun _ => innocent_ite (innocent_pure _) ((innocent_expectAs _ _).bind fun t =>
      ih.bind fun ts => innocent_pure (t :: ts))

theorem innocent_resultNames : Innocent resultNames := by
  refine (innocent_optional _).bind fun o => ?_
  cases o with
  | none => exact innocent_pure _
  | some t =>
    exact innocent_get.bind fun s => (innocent_moreResultNames s.rest.length).bind fun ts =>
      (innocent_expect _).bind fun _ => innocent_pure (t :: ts)

theorem innocent_mnemonic (env : ParserEnv) (expected : Option Kind) : Innocent (mnemonic env expected) := by
  refine (innocent_expectAs _ _).bind fun t => ?_
  cases expected with
  | some kind => exact innocent_ite (innocent_pure _) (innocent_fail _ trivial)
  | none =>
    dsimp only
    split
    · exact innocent_pure _
    · exact innocent_fail _ trivial

theorem innocent_checkResultCount (defined : Nat) (names : List Token) : Innocent (checkResultCount defined names) := by
  cases names with
  | nil => exact innocent_pure _
  | cons t ts => exact innocent_require _ _ trivial

theorem innocent_changeBlock (f : Block → Except BlockFault α × Block) : Innocent (changeBlock f) := by
  intro s e t h
  rw [changeBlock_apply] at h
  cases hf : (f s.block).1 with
  | ok a =>
    rw [hf] at h
    cases h
  | error cause =>
    rw [hf] at h
    cases h

theorem innocent_orStop (x : Readback α) : Innocent (orStop x) := by
  unfold orStop
  split
  · exact innocent_pure _
  · exact innocent_throw (by simp)

end

end Parser

end GateAsm
