import GateAsm.Proofs.Joined.Texts
import GateAsm.Proofs.Rollback

/-!
# Parsers in a moved text

A parser looks at the places of tokens only to report them. In a text whose tokens have the same kinds and texts at
other places it does the same: it fails or answers as before, and its reports and errors are about the moved places
(`Relocation.carries_instructions`).
-/

namespace GateAsm

section
variable (f : Location → Location)

/-! ## What has a place -/

def ParseCause.moved : ParseCause → ParseCause
  | unexpectedToken wanted found => unexpectedToken wanted (found.moved f)
  | missingDelimiter wanted found => missingDelimiter wanted (found.moved f)
  | noComponent found => noComponent (found.moved f)
  | floatTooLarge found => floatTooLarge (found.moved f)
  | badString found => badString (found.moved f)
  | noAttribute found => noAttribute (found.moved f)
  | cause => cause

@[simp]
theorem ParseCause.category_moved (cause : ParseCause) : (cause.moved f).category = cause.category := by
  cases cause <;> rfl

@[simp]
theorem ParseCause.message_moved (cause : ParseCause) : (cause.moved f).message = cause.message := by
  cases cause <;> rfl

def ParseError.moved (e : ParseError) : ParseError := ⟨e.cause.moved f, f e.location⟩

def ParseFailure.moved : ParseFailure → ParseFailure
  | error e => error (e.moved f)
  | failure => failure

def Diagnostic.moved (d : Diagnostic) : Diagnostic := { d with location := f d.location }

def Event.moved : Event → Event
  | diagnosed d => diagnosed (d.moved f)
  | event => event

def Reference.moved (r : Reference) : Reference := { r with location := f r.location }

def Angle.moved : Angle → Angle
  | reference r => reference (r.moved f)
  | angle => angle

def SlotOperand.moved (o : SlotOperand) : SlotOperand :=
  { o with main := o.main.moved f, references := o.references.map (Reference.moved f) }

def Argument.moved (a : Argument) : Argument :=
  { a with main := a.main.moved f, references := a.references.map (Reference.moved f) }

def movedOperand (o : Reference × Bool) : Reference × Bool := (o.1.moved f, o.2)

@[simp]
theorem Angle.references_moved (a : Angle) : (a.moved f).references = a.references.map (Reference.moved f) := by
  cases a <;> rfl

@[simp]
theorem Angle.tags_moved (a : Angle) : (a.moved f).tags = a.tags := by
  cases a <;> rfl

theorem SlotOperand.operands_moved (o : SlotOperand) : (o.moved f).operands = o.operands.map (movedOperand f) := by
  simp only [operands, moved, List.map_cons, List.map_map, List.cons.injEq]
  exact ⟨rfl, rfl⟩

theorem SlotOperand.sizes_moved (o : SlotOperand) : (o.moved f).sizes = o.sizes := by
  simp only [sizes, moved, List.length_map]

theorem Parser.structuralAttrs_moved (kind : Kind) (a : Angle) (given : List SlotOperand) :
    structuralAttrs kind (a.moved f) (given.map (SlotOperand.moved f)) = structuralAttrs kind a given := by
  have sizes : (given.map (SlotOperand.moved f)).flatMap SlotOperand.sizes = given.flatMap SlotOperand.sizes := by
    rw [List.flatMap_map]
    exact List.flatMap_congr fun o _ => o.sizes_moved f
  have tags : (given.map (SlotOperand.moved f)).flatMap SlotOperand.tags = given.flatMap SlotOperand.tags := by
    rw [List.flatMap_map]
    rfl
  simp only [structuralAttrs, sizes, tags, Angle.references_moved, Angle.tags_moved, List.length_map]

theorem Parser.physicalOperands_moved (a : Angle) (given : List SlotOperand) :
    physicalOperands (a.moved f) (given.map (SlotOperand.moved f)) =
      (physicalOperands a given).map (movedOperand f) := by
  have operands : (given.map (SlotOperand.moved f)).flatMap SlotOperand.operands =
      (given.flatMap SlotOperand.operands).map (movedOperand f) := by
    rw [List.flatMap_map, List.map_flatMap]
    exact List.flatMap_congr fun o _ => o.operands_moved f
  rw [physicalOperands, operands, Angle.references_moved, physicalOperands, List.map_append, List.map_map, List.map_map]
  rfl

theorem Parser.callAttrs_moved (callee : String) (count : Int) (args : List Argument) :
    callAttrs callee count (args.map (Argument.moved f)) = callAttrs callee count args := by
  simp [callAttrs, Argument.moved, Function.comp_def, List.flatMap_def]

theorem Parser.callOperands_moved (args : List Argument) :
    callOperands (args.map (Argument.moved f)) = (callOperands args).map (movedOperand f) := by
  simp [callOperands, movedOperand, Argument.moved, Function.comp_def, List.flatMap_def, List.map_flatten]

theorem Parser.resultLabels_moved (names : List Token) :
    resultLabels (names.map (Token.moved f)) = resultLabels names := by
  simp [resultLabels, Function.comp_def]

theorem Parser.missing_moved (kind : TokenKind) (wanted : String) (found : Token) :
    missing kind wanted (found.moved f) = (missing kind wanted found).moved f := by
  unfold missing
  split
  · rfl
  · rfl

end

/-! ## Moved states -/

/-- How the places of a text are moved, and what was reported in front of it. -/
structure Relocation where
  place : Location → Location
  diagnostics : List Diagnostic
  events : List Event

namespace Relocation

variable (m : Relocation) {α β γ δ : Type}

def token : Token → Token := Token.moved m.place

def reference : Reference → Reference := Reference.moved m.place

def state (s : ParserState) : ParserState where
  rest := s.rest.map m.token
  endLocation := m.place s.endLocation
  block := s.block
  context := s.context
  tags := s.tags
  diagnostics := m.diagnostics ++ s.diagnostics.map (Diagnostic.moved m.place)
  events := m.events ++ s.events.map (Event.moved m.place)

def outcome (g : α → β) : Except ParseFailure α × ParserState → Except ParseFailure β × ParserState
  | (.ok a, s) => (.ok (g a), m.state s)
  | (.error e, s) => (.error (e.moved m.place), m.state s)

/-- The parser `q` does in the moved text what `p` does in the text. -/
def Carries (g : α → β) (p : Parser α) (q : Parser β) : Prop := ∀ s, q (m.state s) = m.outcome g (p s)

theorem context_state (s : ParserState) : (m.state s).context = s.context := rfl

theorem block_state (s : ParserState) : (m.state s).block = s.block := rfl

theorem ahead_state (s : ParserState) (n : Nat) : (m.state s).ahead n = m.token (s.ahead n) := by
  simp only [ParserState.ahead, state, List.getElem?_map]
  cases s.rest[n]? with
  | none => rfl
  | some t => rfl

theorem report_state (s : ParserState) (d : Diagnostic) :
    (m.state s).report (d.moved m.place) = m.state (s.report d) := by
  simp only [ParserState.report, state, List.map_append, List.append_assoc]
  rfl

theorem record_state (s : ParserState) {e : Event} (he : e.moved m.place = e) :
    (m.state s).record e = m.state (s.record e) := by
  simp only [ParserState.record, state, List.map_append, List.append_assoc, List.map_cons, he, List.map_nil]

theorem interning_state (s : ParserState) (t : Ty) : (m.state s).interning t = m.state (s.interning t) := by
  unfold ParserState.interning
  rw [m.context_state]
  by_cases grown : ((s.context.intern t).2.size != s.context.size) = true
  · rw [if_pos grown, if_pos grown, ← m.record_state _ rfl]
    rfl
  · rw [if_neg grown, if_neg grown]
    rfl

variable {m} {g : α → β} {h : γ → δ}

/-! ## Control -/

theorem carries_of_yields {p : Parser α} {q : Parser β}
    (hy : ∀ s, ∃ a t, Parser.Yields p s a t ∧ Parser.Yields q (m.state s) (g a) (m.state t)) : m.Carries g p q := by
  intro s
  obtain ⟨a, t, hp, hq⟩ := hy s
  rw [show p s = _ from hp, show q (m.state s) = _ from hq]
  rfl

theorem carries_pure (a : α) : m.Carries g (pure a) (pure (g a)) := fun _ => rfl

theorem carries_throw (e : ParseFailure) : m.Carries g (throw e) (throw (e.moved m.place)) := fun _ => rfl

theorem Carries.bind {p : Parser α} {q : Parser β} {k : α → Parser γ} {l : β → Parser δ} (hp : m.Carries g p q)
    (hk : ∀ a, m.Carries h (k a) (l (g a))) : m.Carries h (p >>= k) (q >>= l) := by
  intro s
  rw [Parser.bind_apply, Parser.bind_apply, hp s]
  rcases p s with ⟨e | a, t⟩
  · rfl
  · exact hk a t

theorem carries_ite {c c' : Prop} [Decidable c] [Decidable c'] {p p' : Parser α} {q q' : Parser β} (hc : c ↔ c')
    (hp : m.Carries g p q) (hp' : m.Carries g p' q') :
    m.Carries g (if c then p else p') (if c' then q else q') := by
  by_cases hd : c
  · rw [if_pos hd, if_pos (hc.mp hd)]
    exact hp
  · rw [if_neg hd, if_neg fun hd' => hd (hc.mpr hd')]
    exact hp'

theorem carries_get : m.Carries m.state (get : Parser ParserState) get := fun _ => rfl

/-- Fuel for all tokens that are left is the same in the moved text. -/
theorem carries_fuel {p : Nat → Parser γ} {q : Nat → Parser δ} (hp : ∀ n, m.Carries h (p n) (q n)) :
    m.Carries h (get >>= fun s => p s.rest.length) (get >>= fun s => q s.rest.length) := by
  apply carries_get.bind
  intro s
  rw [show (m.state s).rest.length = s.rest.length from List.length_map _]
  exact hp _

theorem carries_modify {k l : ParserState → ParserState} (hk : ∀ s, l (m.state s) = m.state (k s)) :
    m.Carries id (modify k : Parser PUnit) (modify l) :=
  carries_of_yields fun s => ⟨⟨⟩, k s, rfl, Parser.yields_modify.mpr (hk s).symm⟩

theorem carries_tags (f : List (String × Attr) → List (String × Attr)) :
    m.Carries id (modify fun s => { s with tags := f s.tags } : Parser PUnit)
      (modify fun s => { s with tags := f s.tags }) :=
  carries_modify fun _ => rfl

/-! ## Single tokens -/

theorem carries_peek (n : Nat) : m.Carries m.token (Parser.peek n) (Parser.peek n) := by
  intro s
  show (Except.ok ((m.state s).ahead n), m.state s) = (Except.ok (m.token (s.ahead n)), m.state s)
  rw [m.ahead_state]

theorem carries_advance : m.Carries m.token Parser.advance Parser.advance :=
  carries_of_yields fun s => ⟨s.ahead 0, s.facing (s.rest.drop 1), rfl, Parser.yields_advance.mpr
    ⟨(m.ahead_state s 0).symm, by simp [state, ParserState.facing]⟩⟩

theorem carries_location : m.Carries m.place Parser.location Parser.location :=
  (carries_peek 0).bind fun t => carries_pure t.location

theorem carries_fail (cause : ParseCause) (l : Location) :
    m.Carries g (Parser.fail cause l) (Parser.fail (cause.moved m.place) (m.place l)) := by
  apply Carries.bind (g := id)
  · refine carries_modify fun s => ?_
    rw [← m.report_state, ParseCause.message_moved]
    rfl
  · intro _ s
    rfl

theorem carries_require (ok : Bool) (cause : ParseCause) (l : Location) :
    m.Carries id (Parser.require ok cause l) (Parser.require ok (cause.moved m.place) (m.place l)) :=
  carries_ite Iff.rfl (carries_pure ()) (carries_fail cause l)

theorem carries_record {e : Event} (he : e.moved m.place = e) : m.Carries id (Parser.record e) (Parser.record e) :=
  carries_modify fun s => m.record_state s he

theorem carries_optional (k : TokenKind) : m.Carries (Option.map m.token) (Parser.optional k) (Parser.optional k) := by
  apply (carries_peek 0).bind
  intro t
  apply carries_ite Iff.rfl
  · exact carries_advance.bind fun t => carries_pure (some t)
  · exact carries_pure none

theorem carries_expectAs (k : TokenKind) (wanted : String) :
    m.Carries m.token (Parser.expectAs k wanted) (Parser.expectAs k wanted) := by
  apply (carries_peek 0).bind
  intro t
  apply carries_ite Iff.rfl carries_advance
  rw [token, Parser.missing_moved]
  exact carries_fail _ t.location

theorem carries_expect (k : TokenKind) : m.Carries m.token (Parser.expect k) (Parser.expect k) := carries_expectAs k _

theorem carries_unless (k : TokenKind) {p p' : Parser α} {q q' : Parser β} (hp : m.Carries g p q)
    (hp' : m.Carries g p' q') :
    m.Carries g (Parser.optional k >>= fun o => if o.isNone = true then p else p')
      (Parser.optional k >>= fun o => if o.isNone = true then q else q') :=
  (carries_optional k).bind fun _ => carries_ite (by rw [Option.isNone_map]) hp hp'

theorem carries_if (k : TokenKind) {p p' : Parser α} {q q' : Parser β} (hp : m.Carries g p q)
    (hp' : m.Carries g p' q') :
    m.Carries g (Parser.optional k >>= fun o => if o.isSome = true then p else p')
      (Parser.optional k >>= fun o => if o.isSome = true then q else q') :=
  (carries_optional k).bind fun _ => carries_ite (by rw [Option.isSome_map]) hp hp'

theorem carries_intern (t : Ty) : m.Carries id (Parser.intern t) (Parser.intern t) :=
  carries_of_yields fun s => ⟨_, _, Parser.yields_intern.mpr ⟨rfl, rfl⟩,
    Parser.yields_intern.mpr ⟨rfl, (m.interning_state s t).symm⟩⟩

theorem carries_integerOf (t : Token) : m.Carries id (Parser.integerOf t) (Parser.integerOf (m.token t)) := by
  unfold Parser.integerOf
  exact carries_ite Iff.rfl (carries_throw .integerTooLong) (carries_pure _)

/-! ## Types -/

theorem carries_malformed (keyword : String) :
    m.Carries g (Parser.malformed keyword) (Parser.malformed keyword) :=
  carries_location.bind fun l => carries_fail _ l

theorem carries_argumentToken (keyword : String) (k : TokenKind) :
    m.Carries id (Parser.argumentToken keyword k) (Parser.argumentToken keyword k) :=
  carries_unless k (carries_malformed keyword) (carries_pure ())

theorem carries_registerArguments (keyword : String) :
    m.Carries id (Parser.registerArguments keyword) (Parser.registerArguments keyword) := by
  apply (carries_argumentToken keyword _).bind
  intro _
  apply (carries_optional _).bind
  intro size
  apply (carries_argumentToken keyword _).bind
  intro _
  cases size with
  | none => exact carries_intern _
  | some t =>
    apply (carries_integerOf t).bind
    intro n
    exact carries_ite Iff.rfl (carries_fail _ t.location) (carries_intern _)

theorem carries_controlCount (keyword : String) (t : Token) :
    m.Carries id (Parser.controlCount keyword t) (Parser.controlCount keyword (m.token t)) :=
  (carries_integerOf t).bind fun _ => carries_ite Iff.rfl (carries_fail _ t.location) (carries_pure _)

theorem carries_controlPrefix (keyword : String) :
    m.Carries (Option.map m.token) (Parser.controlPrefix keyword) (Parser.controlPrefix keyword) := by
  apply (carries_optional _).bind
  intro o
  cases o with
  | none => exact carries_pure none
  | some t => exact (carries_argumentToken keyword _).bind fun _ => carries_pure (some t)

theorem carries_wordAhead (keyword : String) :
    m.Carries m.token (Parser.wordAhead keyword) (Parser.wordAhead keyword) :=
  (carries_peek 0).bind fun t => carries_ite Iff.rfl (carries_malformed keyword) (carries_pure t)

theorem carries_optionalCount (keyword : String) (o : Option Token) :
    m.Carries id (Parser.optionalCount keyword o) (Parser.optionalCount keyword (o.map m.token)) := by
  cases o with
  | none => exact carries_pure _
  | some t =>
    show m.Carries id (some <$> Parser.controlCount keyword t) (some <$> Parser.controlCount keyword (m.token t))
    rw [map_eq_pure_bind, map_eq_pure_bind]
    exact (carries_controlCount keyword t).bind fun n => carries_pure _

theorem carries_controlledType (base : Ty) (count : Option Nat) (l : Location) :
    m.Carries id (Parser.controlledType base count l) (Parser.controlledType base count (m.place l)) := by
  unfold Parser.controlledType
  cases base.base? with
  | some b => exact carries_intern _
  | none => exact carries_fail _ l

section
variable {inner : Parser Ty} (hi : m.Carries id inner inner)
include hi

theorem carries_controlledArguments (keyword : String) :
    m.Carries id (Parser.controlledArguments keyword inner) (Parser.controlledArguments keyword inner) := by
  apply (carries_argumentToken keyword _).bind
  intro _
  apply (carries_controlPrefix keyword).bind
  intro count
  apply (carries_wordAhead keyword).bind
  intro t
  apply hi.bind
  intro base
  apply (carries_argumentToken keyword _).bind
  intro _
  apply (carries_optionalCount keyword count).bind
  intro n
  exact carries_controlledType base n t.location

theorem carries_typeAt (r : Registry) (t : Token) :
    m.Carries id (Parser.typeAt r t inner) (Parser.typeAt r (m.token t) inner) := by
  unfold Parser.typeAt
  simp only [token, Token.text_moved]
  split
  · exact carries_intern _
  · split
    · exact carries_fail _ t.location
    · exact carries_intern _
    · exact carries_intern _
    · exact carries_intern _
    · exact carries_intern _
    · exact carries_registerArguments _
    · exact carries_controlledArguments hi _

end

theorem carries_typeWithin (r : Registry) (fuel : Nat) :
    m.Carries id (Parser.typeWithin r fuel) (Parser.typeWithin r fuel) := by
  induction fuel with
  | zero => exact (carries_peek 0).bind fun t => carries_fail _ t.location
  | succ fuel ih =>
    apply (carries_peek 0).bind
    intro t
    apply carries_ite Iff.rfl (carries_fail _ t.location)
    exact carries_advance.bind fun _ => carries_typeAt ih r t

theorem carries_typeExpr (r : Registry) : m.Carries id (Parser.typeExpr r) (Parser.typeExpr r) :=
  carries_fuel (carries_typeWithin r)

theorem carries_moreTypes (r : Registry) (fuel : Nat) :
    m.Carries id (Parser.moreTypes r fuel) (Parser.moreTypes r fuel) := by
  induction fuel with
  | zero => exact carries_pure _
  | succ fuel ih =>
    apply carries_unless _ (carries_pure _)
    exact (carries_typeExpr r).bind fun t => ih.bind fun ts => carries_pure _

theorem carries_typeList (r : Registry) : m.Carries id (Parser.typeList r) (Parser.typeList r) := by
  apply (carries_typeExpr r).bind
  intro t
  exact carries_fuel fun n => (carries_moreTypes r n).bind fun ts => carries_pure (t :: ts)

theorem carries_colonTypes (r : Registry) : m.Carries id (Parser.colonTypes r) (Parser.colonTypes r) :=
  carries_unless _ (carries_pure _) (carries_typeList r)

theorem carries_arrowTypes (r : Registry) : m.Carries id (Parser.arrowTypes r) (Parser.arrowTypes r) :=
  carries_unless _ (carries_pure _) (carries_typeList r)

theorem carries_countedTypes (r : Registry) (expected : Nat) :
    m.Carries id (Parser.countedTypes r expected) (Parser.countedTypes r expected) := by
  apply carries_location.bind
  intro l
  apply (carries_colonTypes r).bind
  intro types
  exact (carries_require _ _ l).bind fun _ => carries_pure _

/-! ## Literals and tags -/

theorem carries_optionalOperand :
    m.Carries (Option.map m.reference) Parser.optionalOperand Parser.optionalOperand := by
  apply (carries_optional _).bind
  intro o
  cases o with
  | none => exact carries_pure none
  | some t => exact carries_pure (some (Reference.mk t.text t.location))

theorem carries_operand : m.Carries m.reference Parser.operand Parser.operand :=
  (carries_expect _).bind fun t => carries_pure (Reference.mk t.text t.location)

theorem carries_symbol : m.Carries id Parser.symbol Parser.symbol := (carries_expect _).bind fun _ => carries_pure _

theorem carries_integer (wanted : String) : m.Carries id (Parser.integer wanted) (Parser.integer wanted) :=
  (carries_expectAs _ wanted).bind fun t => carries_integerOf t

theorem carries_finiteFloat (t : Token) : m.Carries id (Parser.finiteFloat t) (Parser.finiteFloat (m.token t)) := by
  unfold Parser.finiteFloat
  simp only [token, Token.text_moved]
  split
  · exact carries_ite Iff.rfl (carries_pure _) (carries_fail _ t.location)
  · exact carries_fail _ t.location

theorem carries_optionalFloat : m.Carries id Parser.optionalFloat Parser.optionalFloat := by
  apply (carries_peek 0).bind
  intro t
  apply carries_ite Iff.rfl
  · apply carries_advance.bind
    intro _
    exact (carries_finiteFloat t).bind fun x => carries_pure _
  · exact carries_pure _

theorem carries_literals (fuel : Nat) : m.Carries id (Parser.literalWithin fuel) (Parser.literalWithin fuel) ∧
    m.Carries id (Parser.literalsWithin fuel) (Parser.literalsWithin fuel) := by
  induction fuel with
  | zero => exact ⟨(carries_peek 0).bind fun t => carries_fail _ t.location, carries_pure _⟩
  | succ fuel ih =>
    obtain ⟨one, more⟩ := ih
    constructor
    · apply (carries_peek 0).bind
      intro t
      simp only [token, Token.kind_moved, Token.text_moved]
      split
      · exact carries_advance.bind fun _ => (carries_integerOf t).bind fun n => carries_pure _
      · exact carries_advance.bind fun _ => (carries_finiteFloat t).bind fun x => carries_pure _
      · apply carries_advance.bind
        intro _
        split
        · exact carries_pure _
        · exact carries_fail _ t.location
      · exact carries_symbol.bind fun n => carries_pure _
      · apply carries_advance.bind
        intro _
        apply carries_if _ (carries_pure _)
        exact one.bind fun first => more.bind fun others => (carries_expect _).bind fun _ => carries_pure _
      · exact carries_ite Iff.rfl (carries_advance.bind fun _ => carries_pure _) (carries_fail _ t.location)
      · exact carries_fail _ t.location
    · apply carries_unless _ (carries_pure _)
      exact one.bind fun first => more.bind fun others => carries_pure _

theorem carries_literal : m.Carries id Parser.literal Parser.literal := carries_fuel fun n => (carries_literals n).1

theorem carries_tagEntries (reserved : List String) (fuel : Nat) :
    m.Carries id (Parser.tagEntries reserved fuel) (Parser.tagEntries reserved fuel) := by
  induction fuel with
  | zero => exact (carries_expectAs _ _).bind fun _ => carries_pure _
  | succ fuel ih =>
    apply (carries_expectAs _ _).bind
    intro t
    apply carries_ite Iff.rfl (carries_fail _ t.location)
    apply carries_get.bind
    intro s
    apply carries_ite Iff.rfl (carries_fail _ t.location)
    apply (carries_expect _).bind
    intro _
    apply carries_literal.bind
    intro value
    apply (carries_tags (Attr.put t.text value)).bind
    intro _
    exact carries_if _ ih ((carries_expect _).bind fun _ => carries_pure _)

theorem carries_optionalTags (reserved : List String) :
    m.Carries id (Parser.optionalTags reserved) (Parser.optionalTags reserved) :=
  carries_unless _ (carries_pure _) (carries_if _ (carries_pure _) (carries_fuel (carries_tagEntries reserved)))

/-! ## Names -/

theorem carries_changeBlock (f : Block → Except BlockFault α × Block) :
    m.Carries id (Parser.changeBlock f) (Parser.changeBlock f) := by
  intro s
  rw [Parser.changeBlock_apply, Parser.changeBlock_apply, m.block_state]
  cases (f s.block).1 with
  | error e => rfl
  | ok a => rfl

theorem carries_orStop (x : Readback α) : m.Carries id (Parser.orStop x) (Parser.orStop x) := by
  cases x with
  | ok a => exact carries_pure a
  | error e => exact carries_throw (.type e)

theorem carries_bind (r : Registry) (ref : Reference) (t : Ty) :
    m.Carries id (Parser.bind r ref t) (Parser.bind r (m.reference ref) t) := by
  apply carries_get.bind
  intro s
  simp only [m.block_state, reference, Reference.moved]
  split
  · exact carries_changeBlock _
  · apply (carries_orStop _).bind
    intro same
    apply carries_ite Iff.rfl (carries_pure _)
    exact (carries_orStop _).bind fun _ => (carries_orStop _).bind fun _ => carries_fail _ ref.location

theorem carries_bindAll (r : Registry) (refs : List Reference) (types : List Ty) :
    m.Carries id (Parser.bindAll r refs types) (Parser.bindAll r (refs.map m.reference) types) := by
  induction refs generalizing types with
  | nil =>
    cases types with
    | nil => exact carries_pure _
    | cons t ts => exact carries_throw .lengthMismatch
  | cons ref refs ih =>
    cases types with
    | nil => exact carries_throw .lengthMismatch
    | cons t ts => exact (carries_bind r ref t).bind fun id => (ih ts).bind fun ids => carries_pure _

theorem carries_boundOperands (env : ParserEnv) (kind : Kind) (operands : List (Reference × Bool)) :
    m.Carries id (Parser.boundOperands env kind operands)
      (Parser.boundOperands env kind (operands.map (movedOperand m.place))) := by
  have written : ((operands.map (movedOperand m.place)).filter (!·.2)).length = (operands.filter (!·.2)).length := by
    rw [List.filter_map, List.length_map]
    rfl
  have names : (operands.map (movedOperand m.place)).map (·.1) = (operands.map (·.1)).map m.reference := by
    rw [List.map_map, List.map_map]
    rfl
  have flags : (operands.map (movedOperand m.place)).map (·.2) = operands.map (·.2) := by
    rw [List.map_map]
    rfl
  unfold Parser.boundOperands
  rw [written, names, flags]
  apply (carries_optionalTags _).bind
  intro _
  apply (carries_countedTypes _ _).bind
  intro types
  exact (carries_intern _).bind fun _ => carries_bindAll _ _ _

/-! ## Operands -/

theorem carries_component :
    m.Carries (Prod.map id (Option.map m.reference)) Parser.component Parser.component := by
  apply carries_optionalOperand.bind
  intro o
  cases o with
  | some r => exact carries_pure (_, some r)
  | none =>
    apply (carries_peek 0).bind
    intro t
    apply carries_ite Iff.rfl (carries_fail _ t.location)
    apply (carries_integerOf t).bind
    intro n
    exact carries_ite Iff.rfl (carries_advance.bind fun _ => carries_pure (_, none)) (carries_fail _ t.location)

theorem carries_components (room : Nat) :
    m.Carries (List.map (Prod.map id (Option.map m.reference))) (Parser.components room) (Parser.components room) := by
  induction room with
  | zero => exact carries_pure []
  | succ room ih =>
    apply carries_component.bind
    intro c
    apply carries_ite Iff.rfl (carries_pure [c])
    apply carries_unless _ (carries_pure [c])
    exact ih.bind fun cs => carries_pure (c :: cs)

theorem carries_accessorList :
    m.Carries (Prod.map id (List.map m.reference)) Parser.accessorList Parser.accessorList := by
  apply carries_unless _ (carries_pure (_, []))
  apply carries_if _ (carries_pure (_, []))
  apply (carries_components _).bind
  intro cs
  apply (carries_expect _).bind
  intro _
  have references : (cs.map (Prod.map id (Option.map m.reference))).filterMap (·.2) =
      (cs.filterMap (·.2)).map m.reference := by
    rw [List.filterMap_map, List.map_filterMap]
    rfl
  have listed : (cs.map (Prod.map id (Option.map m.reference))).map (·.1) = cs.map (·.1) := by
    rw [List.map_map]
    rfl
  rw [references, listed]
  exact carries_pure (_, _)

theorem carries_slotAccessor (slot : Slot) :
    m.Carries (Prod.map id (List.map m.reference)) (Parser.slotAccessor slot) (Parser.slotAccessor slot) :=
  carries_ite Iff.rfl carries_accessorList (carries_pure (_, []))

theorem carries_slotOperands (kind : Kind) (slots : List Slot) (r : Reference) :
    m.Carries (List.map (SlotOperand.moved m.place)) (Parser.slotOperands kind slots r)
      (Parser.slotOperands kind slots (m.reference r)) := by
  induction slots generalizing r with
  | nil => exact carries_fail _ r.location
  | cons slot slots ih =>
    apply (carries_slotAccessor slot).bind
    intro x
    let here : SlotOperand := ⟨slot, r, x.1, x.2⟩
    apply carries_unless _ (carries_pure [here])
    apply carries_operand.bind
    intro next
    exact (ih next).bind fun others => carries_pure (here :: others)

theorem carries_operandList (kind : Kind) :
    m.Carries (List.map (SlotOperand.moved m.place)) (Parser.operandList kind) (Parser.operandList kind) := by
  apply carries_optionalOperand.bind
  intro o
  cases o with
  | none => exact carries_pure []
  | some r => exact carries_slotOperands kind _ r

section
variable (env : ParserEnv) (kind : Kind)

theorem carries_missingAngle :
    m.Carries (Angle.moved m.place) (Parser.missingAngle env kind) (Parser.missingAngle env kind) := by
  apply carries_location.bind
  intro l
  apply carries_ite Iff.rfl
  · apply Carries.bind (g := id)
    · exact carries_modify fun s => m.report_state s ⟨.warning, l, _⟩
    · exact fun _ => (carries_record rfl).bind fun _ => carries_pure Angle.absent
  · exact carries_fail _ l

theorem carries_angleInside :
    m.Carries (Angle.moved m.place) (Parser.angleInside env kind) (Parser.angleInside env kind) := by
  apply carries_optionalFloat.bind
  intro x
  cases x with
  | some x => exact carries_pure (Angle.literal x)
  | none =>
    apply carries_optionalOperand.bind
    intro o
    cases o with
    | some r => exact carries_pure (Angle.reference r)
    | none => exact carries_missingAngle env kind

theorem carries_optionalAngle :
    m.Carries (Angle.moved m.place) (Parser.optionalAngle env kind) (Parser.optionalAngle env kind) := by
  refine carries_ite Iff.rfl ?_ (carries_pure Angle.absent)
  apply carries_unless _ (carries_pure Angle.absent)
  exact (carries_angleInside env kind).bind fun found => (carries_expect _).bind fun _ => carries_pure found

theorem carries_operandGroup : m.Carries id (Parser.operandGroup env kind) (Parser.operandGroup env kind) := by
  apply (carries_optionalAngle env kind).bind
  intro found
  apply carries_location.bind
  intro start
  apply (carries_operandList kind).bind
  intro given
  rw [List.length_map, Parser.structuralAttrs_moved, Parser.physicalOperands_moved]
  apply (carries_require _ _ start).bind
  intro _
  apply (carries_tags fun _ => Parser.structuralAttrs kind found given).bind
  intro _
  apply (carries_boundOperands env kind _).bind
  intro values
  apply (carries_arrowTypes _).bind
  intro results
  exact carries_get.bind fun s => carries_pure _

/-! ## Calls -/

theorem carries_arguments (fuel : Nat) :
    m.Carries (List.map (Argument.moved m.place)) (Parser.arguments fuel) (Parser.arguments fuel) := by
  induction fuel with
  | zero => exact carries_pure []
  | succ fuel ih =>
    apply carries_unless _ (carries_pure [])
    apply carries_operand.bind
    intro r
    apply carries_accessorList.bind
    intro x
    exact ih.bind fun others => carries_pure (⟨r, x.1, x.2⟩ :: others)

theorem carries_checkSegments (sizes : List Nat) :
    m.Carries id (Parser.checkSegments sizes) (Parser.checkSegments sizes) :=
  carries_ite Iff.rfl (carries_pure _) (carries_throw .segmentTooLarge)

theorem carries_callForm : m.Carries id (Parser.callForm env kind) (Parser.callForm env kind) := by
  apply carries_symbol.bind
  intro callee
  apply (carries_expect _).bind
  intro _
  apply (carries_integer _).bind
  intro count
  refine carries_fuel fun n => (carries_arguments n).bind fun args => ?_
  have references : ((args.map (Argument.moved m.place)).flatMap (·.references)).length =
      (args.flatMap (·.references)).length := by
    simp [List.length_flatMap, Argument.moved, Function.comp_def]
  rw [references, List.length_map, Parser.callAttrs_moved, Parser.callOperands_moved]
  apply (carries_expect _).bind
  intro _
  apply (carries_checkSegments _).bind
  intro _
  apply (carries_tags fun _ => Parser.callAttrs callee count args).bind
  intro _
  apply (carries_boundOperands env kind _).bind
  intro values
  apply (carries_expect _).bind
  intro _
  apply (carries_typeExpr _).bind
  intro result
  exact carries_get.bind fun s => carries_pure _

/-! ## Instructions -/

theorem carries_operationBody : m.Carries id (Parser.operationBody env kind) (Parser.operationBody env kind) :=
  carries_ite Iff.rfl (carries_callForm env kind) (carries_operandGroup env kind)

end

theorem carries_moreResultNames (fuel : Nat) :
    m.Carries (List.map m.token) (Parser.moreResultNames fuel) (Parser.moreResultNames fuel) := by
  induction fuel with
  | zero => exact carries_pure []
  | succ fuel ih =>
    apply carries_unless _ (carries_pure [])
    exact (carries_expectAs _ _).bind fun t => ih.bind fun ts => carries_pure (t :: ts)

theorem carries_resultNames : m.Carries (List.map m.token) Parser.resultNames Parser.resultNames := by
  apply (carries_optional _).bind
  intro o
  cases o with
  | none => exact carries_pure []
  | some t =>
    exact carries_fuel fun n => (carries_moreResultNames n).bind fun ts => (carries_expect _).bind fun _ =>
      carries_pure (t :: ts)

theorem carries_mnemonic (env : ParserEnv) (expected : Option Kind) :
    m.Carries id (Parser.mnemonic env expected) (Parser.mnemonic env expected) := by
  apply (carries_expectAs _ _).bind
  intro t
  cases expected with
  | some kind => exact carries_ite Iff.rfl (carries_pure _) (carries_fail _ t.location)
  | none =>
    simp only [token, Token.text_moved]
    split
    · exact carries_pure _
    · exact carries_fail _ t.location

theorem carries_checkResultCount (defined : Nat) (names : List Token) :
    m.Carries id (Parser.checkResultCount defined names) (Parser.checkResultCount defined (names.map m.token)) := by
  cases names with
  | nil => exact carries_pure _
  | cons t ts =>
    simp only [List.map_cons, Parser.checkResultCount, List.length_cons, List.length_map]
    exact carries_require _ _ t.location

theorem carries_checkResultNames (seen : List String) (names : List Token) :
    m.Carries id (Parser.checkResultNames seen names) (Parser.checkResultNames seen (names.map m.token)) := by
  induction names generalizing seen with
  | nil => exact carries_pure _
  | cons t ts ih =>
    apply carries_get.bind
    intro s
    exact (carries_require _ _ t.location).bind fun _ => ih _

theorem Carries.withFreshTags {p : Parser α} {q : Parser β} (hp : m.Carries g p q) :
    m.Carries g (Parser.withFreshTags p) (Parser.withFreshTags q) := by
  intro s
  rw [Parser.withFreshTags_apply, Parser.withFreshTags_apply,
    show (m.state s).withTags [] = m.state (s.withTags []) from rfl, hp]
  rcases p (s.withTags []) with ⟨e | a, t⟩
  · rfl
  · rfl

theorem Carries.tryCatch {p : Parser α} {q : Parser β} {k : ParseFailure → Parser α} {l : ParseFailure → Parser β}
    (hp : m.Carries g p q) (hk : ∀ e, m.Carries g (k e) (l (e.moved m.place))) :
    m.Carries g (tryCatch p k) (tryCatch q l) := by
  intro s
  rw [Parser.tryCatch_apply, Parser.tryCatch_apply, hp]
  rcases p s with ⟨e | a, t⟩
  · exact hk e t
  · rfl

section
variable (env : ParserEnv) (expected : Option Kind)

theorem carries_instructionBody :
    m.Carries id (Parser.instructionBody env expected) (Parser.instructionBody env expected) := by
  apply carries_resultNames.bind
  intro names
  apply (carries_mnemonic env expected).bind
  intro kind
  apply (carries_operationBody env kind).bind
  intro state
  apply (carries_checkResultCount _ names).bind
  intro _
  apply (carries_checkResultNames [] names).bind
  intro _
  rw [token, Parser.resultLabels_moved]
  apply (carries_changeBlock _).bind
  intro op
  exact (carries_record rfl).bind fun _ => carries_pure op

theorem carries_instruction : m.Carries id (Parser.instruction env expected) (Parser.instruction env expected) := by
  apply carries_get.bind
  intro s
  apply (carries_instructionBody env expected).withFreshTags.tryCatch
  intro e
  cases e with
  | error e => exact (carries_changeBlock _).bind fun _ => carries_throw (.error e)
  | _ => exact carries_throw _

theorem carries_instructions (fuel : Nat) :
    m.Carries id (Parser.instructions env fuel) (Parser.instructions env fuel) := by
  induction fuel with
  | zero => exact carries_pure _
  | succ fuel ih =>
    have atEnd : m.Carries id Parser.atEnd Parser.atEnd := (carries_peek 0).bind fun t => carries_pure _
    apply atEnd.bind
    intro last
    exact carries_ite Iff.rfl (carries_pure _) ((carries_instruction env none).bind fun _ => ih)

end

end Relocation

end GateAsm
