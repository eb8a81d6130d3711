import GateAsm.Proofs.Interning

/-!
# What reading leaves behind

A parser changes its state by a few steps only: it consumes a token, reports, interns a type, collects
tags, and adds an input under a name that is free. What all of these keep (`Parser.Frame`) is kept by
every parser in front of the operation that an instruction appends, whether it answers or fails.
-/

namespace GateAsm.Parser

/-- A relation between states that holds across every single step of reading. -/
structure Frame (R : ParserState → ParserState → Prop) : Prop where
  refl : ∀ s, R s s
  trans : ∀ {s t u}, R s t → R t u → R s u
  consume : ∀ s, R s (s.facing (s.rest.drop 1))
  report : ∀ s d, R s (s.report d)
  record : ∀ s e, R s (s.record e)
  context : ∀ s : ParserState, ∀ t : Ty, t.Made → (∀ b n, t = .controlled b n → ⟨b.ty, []⟩ ∈ s.context.stored) →
    R s { s with context := (s.context.intern t).2 }
  tags : ∀ s ts, R s (s.withTags ts)
  input : ∀ s n t, s.block.lookup n = none → ∀ id b, s.block.addInput (some (.text n)) (.type t) = .ok (id, b) →
    R s (s.withBlock b)

def Keeps {α : Type} (R : ParserState → ParserState → Prop) (p : Parser α) : Prop := ∀ s, R s (p s).2

theorem Keeps.yields {α : Type} {R : ParserState → ParserState → Prop} {p : Parser α} {s t : ParserState} {a : α}
    (hp : Keeps R p) (h : Yields p s a t) : R s t := by
  have := hp s
  rwa [show p s = (.ok a, t) from h] at this

theorem changeBlock_apply {α : Type} (f : Block → Except BlockFault α × Block) (s : ParserState) :
    changeBlock f s = ((f s.block).1.mapError .block, s.withBlock (f s.block).2) := by
  unfold changeBlock
  rw [get_bind_apply]
  rcases f s.block with ⟨e | a, b⟩
  · rfl
  · rfl

theorem numberAbove?_pos {d : Option String} {count : Option Nat} (h : TypeSyntax.numberAbove? 0 d = some count)
    (n : Nat) (hn : count = some n) : 0 < n := by
  cases d with
  | none => cases h; cases hn
  | some d =>
    obtain ⟨m, -, hlow, rfl⟩ := TypeSyntax.numberAbove?_some_iff.mp h
    cases hn
    omega

theorem builtinType?_ne_controlled {w : String} {t : Ty} (h : builtinType? w = some t) (b : GateBase) (n : Option Nat) :
    t ≠ .controlled b n := by
  rintro rfl
  unfold builtinType? at h
  split at h
  · cases h
  split at h
  · cases h
  split at h
  · cases h
  split at h
  · cases h
  split at h
  · dsimp only at h
    split at h <;> cases h
  · cases h

/-! ## Types that are kept -/

/-- The types that the parser answers are kept by the context that it leaves. -/
def Stores (p : Parser Ty) : Prop := ∀ {s a t}, Yields p s a t → ⟨a, []⟩ ∈ t.context.stored

section
variable {α : Type}

theorem stores_intern (t : Ty) : Stores (intern t) := by
  intro s a u h
  obtain ⟨rfl, rfl⟩ := yields_intern.mp h
  rw [ParserState.context_interning]
  exact s.context.intern_mem t

theorem stores_fail (cause : ParseCause) (l : Location) : Stores (fail cause l) := fun h => absurd h not_yields_fail

theorem stores_bind {p : Parser α} {f : α → Parser Ty} (hf : ∀ a, Stores (f a)) : Stores (p >>= f) := by
  intro s a t h
  obtain ⟨x, u, -, second⟩ := yields_bind.mp h
  exact hf x second

theorem stores_ite {c : Prop} [Decidable c] {p q : Parser Ty} (hp : Stores p) (hq : Stores q) :
    Stores (if c then p else q) := by
  split
  · exact hp
  · exact hq

end

theorem stores_registerArguments (keyword : String) : Stores (registerArguments keyword) := by
  refine stores_bind fun _ => stores_bind fun size => stores_bind fun _ => ?_
  cases size with
  | none => exact stores_intern _
  | some t => exact stores_bind fun n => stores_ite (stores_fail _ _) (stores_intern _)

theorem stores_controlledArguments (keyword : String) (inner : Parser Ty) :
    Stores (controlledArguments keyword inner) := by
  refine stores_bind fun _ => stores_bind fun _ => stores_bind fun l => stores_bind fun base => stores_bind fun _ =>
    stores_bind fun count => ?_
  unfold controlledType
  split
  · exact stores_intern _
  · exact stores_fail _ _

theorem stores_typeAt (r : Registry) (t : Token) (inner : Parser Ty) : Stores (typeAt r t inner) := by
  unfold typeAt
  split
  · exact stores_intern _
  · split
    · exact stores_fail _ _
    · exact stores_intern _
    · exact stores_intern _
    · exact stores_intern _
    · exact stores_intern _
    · exact stores_registerArguments _
    · exact stores_controlledArguments _ _

theorem stores_typeWithin (r : Registry) (fuel : Nat) : Stores (typeWithin r fuel) := by
  cases fuel with
  | zero => exact stores_bind fun _ => stores_fail _ _
  | succ fuel => exact stores_bind fun t => stores_ite (stores_fail _ _) (stores_bind fun _ => stores_typeAt r t _)

theorem frame_stored : Frame fun s t => s.context.stored ⊆ t.context.stored where
  refl _ := List.Subset.refl _
  trans h h' := List.Subset.trans h h'
  consume _ := List.Subset.refl _
  report _ _ := List.Subset.refl _
  record _ _ := List.Subset.refl _
  context s t _ _ := (s.context.stored_prefix_store ⟨t, []⟩).subset
  tags _ _ := List.Subset.refl _
  input _ _ _ _ _ _ _ := List.Subset.refl _

theorem frame_suffix : Frame fun s t => t.rest <:+ s.rest where
  refl _ := List.suffix_refl _
  trans h h' := h'.trans h
  consume s := List.drop_suffix 1 s.rest
  report _ _ := List.suffix_refl _
  record _ _ := List.suffix_refl _
  context _ _ _ _ := List.suffix_refl _
  tags _ _ := List.suffix_refl _
  input _ _ _ _ _ _ _ := List.suffix_refl _

namespace Frame

variable {R : ParserState → ParserState → Prop} (hR : Frame R) {α β : Type}
include hR

/-! ## Control -/

theorem pure (a : α) : Keeps R (pure a : Parser α) := fun s => hR.refl s

theorem throw (e : ParseFailure) : Keeps R (throw e : Parser α) := fun s => hR.refl s

theorem bindAt {p : Parser α} {f : α → Parser β} {s : ParserState} (hp : R s (p s).2)
    (hf : ∀ a u, p s = (.ok a, u) → R u (f a u).2) : R s ((p >>= f) s).2 := by
  rw [bind_apply]
  cases h : p s with
  | mk answer u =>
    rw [h] at hp
    cases answer with
    | error e => exact hp
    | ok a => exact hR.trans hp (hf a u h)

theorem bind {p : Parser α} {f : α → Parser β} (hp : Keeps R p) (hf : ∀ a, Keeps R (f a)) : Keeps R (p >>= f) :=
  fun s => hR.bindAt (hp s) fun a u _ => hf a u

theorem map {p : Parser α} (f : α → β) (hp : Keeps R p) : Keeps R (f <$> p) := by
  rw [map_eq_pure_bind]
  exact hR.bind hp fun a => hR.pure (f a)

omit hR in
theorem ite {c : Prop} [Decidable c] {p q : Parser α} (hp : Keeps R p) (hq : Keeps R q) :
    Keeps R (if c then p else q) := by
  split
  · exact hp
  · exact hq

omit hR in
theorem iteNot {c : Prop} [Decidable c] {p q : Parser α} (hp : Keeps R p) (hq : ¬c → Keeps R q) :
    Keeps R (if c then p else q) := by
  split
  · exact hp
  · next h => exact hq h

theorem get : Keeps R (get : Parser ParserState) := fun s => hR.refl s

omit hR in
theorem modify {f : ParserState → ParserState} (hf : ∀ s, R s (f s)) : Keeps R (modify f : Parser PUnit) := hf

/-! ## Single tokens -/

theorem peek (n : Nat) : Keeps R (peek n) := hR.bind hR.get fun s => hR.pure (s.ahead n)

theorem advance : Keeps R advance := fun s => hR.consume s

theorem location : Keeps R location := hR.bind (hR.peek 0) fun t => hR.pure t.location

theorem fail (cause : ParseCause) (l : Location) : Keeps R (fail cause l : Parser α) := fun s => hR.report s _

theorem require (ok : Bool) (cause : ParseCause) (l : Location) : Keeps R (require ok cause l) :=
  ite (hR.pure ()) (hR.fail cause l)

theorem recordEvent (e : Event) : Keeps R (Parser.record e) := fun s => hR.record s e

theorem optional (k : TokenKind) : Keeps R (optional k) :=
  hR.bind (hR.peek 0) fun _ => ite (hR.bind hR.advance fun t => hR.pure (some t)) (hR.pure none)

theorem expectAs (k : TokenKind) (wanted : String) : Keeps R (expectAs k wanted) :=
  hR.bind (hR.peek 0) fun _ => ite hR.advance (hR.fail _ _)

theorem expect (k : TokenKind) : Keeps R (expect k) := hR.expectAs k _

theorem expectEnd : Keeps R expectEnd := hR.bind (hR.expect _) fun _ => hR.pure ()

theorem internAt {t : Ty} (ht : t.Made) {s : ParserState}
    (hb : ∀ b n, t = .controlled b n → ⟨b.ty, []⟩ ∈ s.context.stored) : R s (intern t s).2 := by
  refine hR.bindAt (hR.refl s) fun a u h => ?_
  cases h
  refine hR.bindAt (hR.context s t ht hb) fun _ _ h => ?_
  cases h
  exact ite (hR.bind (hR.recordEvent _) fun _ => hR.pure _) (hR.pure _) _

theorem intern {t : Ty} (ht : t.Made) (hb : ∀ b n, t ≠ .controlled b n) : Keeps R (intern t) :=
  fun _ => hR.internAt ht fun b n h => absurd h (hb b n)

theorem integerOf (t : Token) : Keeps R (integerOf t) := by
  unfold Parser.integerOf
  exact ite (hR.throw _) (hR.pure _)

/-! ## Types -/

theorem malformed (keyword : String) : Keeps R (malformed keyword : Parser α) :=
  hR.bind hR.location fun l => hR.fail _ l

theorem argumentToken (keyword : String) (k : TokenKind) : Keeps R (argumentToken keyword k) :=
  hR.bind (hR.optional k) fun _ => ite (hR.malformed keyword) (hR.pure _)

theorem registerArguments (keyword : String) : Keeps R (registerArguments keyword) := by
  refine hR.bind (hR.argumentToken keyword _) fun _ => hR.bind (hR.optional _) fun size =>
    hR.bind (hR.argumentToken keyword _) fun _ => ?_
  cases size with
  | none => exact hR.intern trivial nofun
  | some t =>
    refine hR.bind (hR.integerOf t) fun n => iteNot (hR.fail _ _) fun hn => hR.intern ?_ nofun
    show 1 < n.toNat
    omega

theorem controlCount (keyword : String) (t : Token) : Keeps R (controlCount keyword t) :=
  hR.bind (hR.integerOf t) fun _ => ite (hR.fail _ _) (hR.pure _)

theorem controlPrefix (keyword : String) : Keeps R (controlPrefix keyword) := by
  refine hR.bind (hR.optional _) fun o => ?_
  cases o with
  | none => exact hR.pure _
  | some t => exact hR.bind (hR.argumentToken keyword _) fun _ => hR.pure _

theorem wordAhead (keyword : String) : Keeps R (wordAhead keyword) :=
  hR.bind (hR.peek 0) fun _ => ite (hR.malformed keyword) (hR.pure _)

theorem optionalCount (keyword : String) (o : Option Token) : Keeps R (optionalCount keyword o) := by
  cases o with
  | none => exact hR.pure _
  | some t => exact hR.map some (hR.controlCount keyword t)

theorem controlledType {base : Ty} {count : Option Nat} (l : Location) (hn : ∀ n, count = some n → 0 < n)
    {s : ParserState} (hb : ⟨base, []⟩ ∈ s.context.stored) : R s (controlledType base count l s).2 := by
  unfold Parser.controlledType
  cases hbase : base.base? with
  | none => exact hR.fail _ l s
  | some b =>
    obtain rfl := Ty.base?_eq_some_iff.mp hbase
    refine hR.internAt ?_ fun b' n' h => ?_
    · cases count with
      | none => trivial
      | some n => exact hn n rfl
    · cases h
      exact hb

theorem controlledArguments (keyword : String) {inner : Parser Ty} (hi : Keeps R inner) (stores : Stores inner) :
    Keeps R (controlledArguments keyword inner) := by
  refine hR.bind (hR.argumentToken keyword _) fun _ => hR.bind (hR.controlPrefix keyword) fun count =>
    hR.bind (hR.wordAhead keyword) fun l s => hR.bindAt (hi s) fun base u hbase => ?_
  -- the base stays in the context while the rest is read
  refine hR.bindAt (hR.argumentToken keyword _ u) fun _ v hv =>
    hR.bindAt (hR.optionalCount keyword count v) fun n w hw => ?_
  have left : u.context.stored ⊆ v.context.stored := by
    have := frame_stored.argumentToken keyword .more u
    rwa [hv] at this
  obtain ⟨hn, rfl⟩ := yields_optionalCount.mp hw
  exact hR.controlledType _ (numberAbove?_pos hn) (left (stores hbase))

theorem typeAt (r : Registry) (t : Token) {inner : Parser Ty} (hi : Keeps R inner) (stores : Stores inner) :
    Keeps R (typeAt r t inner) := by
  unfold Parser.typeAt
  split
  · next hb => exact hR.intern (Ty.readable_builtin hb).made (builtinType?_ne_controlled hb)
  · split
    · exact hR.fail _ _
    · exact hR.intern trivial nofun
    · exact hR.intern trivial nofun
    · exact hR.intern trivial nofun
    · exact hR.intern trivial nofun
    · exact hR.registerArguments _
    · exact hR.controlledArguments _ hi stores

theorem typeWithin (r : Registry) (fuel : Nat) : Keeps R (typeWithin r fuel) := by
  induction fuel with
  | zero => exact hR.bind (hR.peek 0) fun t => hR.fail _ _
  | succ fuel ih =>
    exact hR.bind (hR.peek 0) fun t => ite (hR.fail _ _)
      (hR.bind hR.advance fun _ => hR.typeAt r t ih (stores_typeWithin r fuel))

theorem typeExpr (r : Registry) : Keeps R (typeExpr r) := hR.bind hR.get fun s => hR.typeWithin r s.rest.length

theorem moreTypes (r : Registry) (fuel : Nat) : Keeps R (moreTypes r fuel) := by
  induction fuel with
  | zero => exact hR.pure _
  | succ fuel ih =>
    exact hR.bind (hR.optional _) fun _ => ite (hR.pure _)
      (hR.bind (hR.typeExpr r) fun t => hR.bind ih fun ts => hR.pure (t :: ts))

theorem typeList (r : Registry) : Keeps R (typeList r) :=
  hR.bind (hR.typeExpr r) fun t => hR.bind hR.get fun s => hR.bind (hR.moreTypes r s.rest.length) fun ts =>
    hR.pure (t :: ts)

theorem colonTypes (r : Registry) : Keeps R (colonTypes r) :=
  hR.bind (hR.optional _) fun _ => ite (hR.pure _) (hR.typeList r)

theorem arrowTypes (r : Registry) : Keeps R (arrowTypes r) :=
  hR.bind (hR.optional _) fun _ => ite (hR.pure _) (hR.typeList r)

theorem countedTypes (r : Registry) (expected : Nat) : Keeps R (countedTypes r expected) :=
  hR.bind hR.location fun _ => hR.bind (hR.colonTypes r) fun types =>
    hR.bind (hR.require _ _ _) fun _ => hR.pure types

/-! ## Literals and tags -/

theorem optionalOperand : Keeps R optionalOperand := hR.bind (hR.optional _) fun _ => hR.pure _

theorem operand : Keeps R operand := hR.bind (hR.expect _) fun _ => hR.pure _

theorem symbol : Keeps R symbol := hR.bind (hR.expect _) fun _ => hR.pure _

theorem integer (wanted : String) : Keeps R (integer wanted) :=
  hR.bind (hR.expectAs _ wanted) fun t => hR.integerOf t

theorem finiteFloat (t : Token) : Keeps R (finiteFloat t) := by
  unfold Parser.finiteFloat
  split
  · exact ite (hR.pure _) (hR.fail _ _)
  · exact hR.fail _ _

theorem optionalFloat : Keeps R optionalFloat :=
  hR.bind (hR.peek 0) fun t => ite
    (hR.bind hR.advance fun _ => hR.bind (hR.finiteFloat t) fun x => hR.pure (some x)) (hR.pure none)

theorem optionalInteger : Keeps R optionalInteger := by
  refine hR.bind (hR.optional _) fun o => ?_
  cases o with
  | none => exact hR.pure _
  | some t => exact hR.bind (hR.integerOf t) fun n => hR.pure (some n)

theorem optionalKeyword (keyword : Option String) : Keeps R (optionalKeyword keyword) :=
  hR.bind (hR.peek 0) fun _ => ite (hR.pure none) (hR.bind hR.advance fun _ => hR.pure _)

theorem literals (fuel : Nat) : Keeps R (literalWithin fuel) ∧ Keeps R (literalsWithin fuel) := by
  induction fuel with
  | zero => exact ⟨hR.bind (hR.peek 0) fun t => hR.fail _ _, hR.pure _⟩
  | succ fuel ih =>
    obtain ⟨one, more⟩ := ih
    constructor
    · refine hR.bind (hR.peek 0) fun t => ?_
      split
      · exact hR.bind hR.advance fun _ => hR.bind (hR.integerOf t) fun n => hR.pure _
      · exact hR.bind hR.advance fun _ => hR.bind (hR.finiteFloat t) fun x => hR.pure _
      · refine hR.bind hR.advance fun _ => ?_
        split
        · exact hR.pure _
        · exact hR.fail _ _
      · exact hR.bind hR.symbol fun n => hR.pure _
      · exact hR.bind hR.advance fun _ => hR.bind (hR.optional _) fun _ => ite (hR.pure _)
          (hR.bind one fun first => hR.bind more fun others => hR.bind (hR.expect _) fun _ => hR.pure _)
      · exact ite (hR.bind hR.advance fun _ => hR.pure _) (hR.fail _ _)
      · exact hR.fail _ _
    · exact hR.bind (hR.optional _) fun _ => ite (hR.pure _)
        (hR.bind one fun first => hR.bind more fun others => hR.pure _)

theorem literal : Keeps R literal := hR.bind hR.get fun s => (hR.literals s.rest.length).1

theorem tagEntries (reserved : List String) (fuel : Nat) : Keeps R (tagEntries reserved fuel) := by
  induction fuel with
  | zero => exact hR.bind (hR.expectAs _ _) fun _ => hR.pure _
  | succ fuel ih =>
    refine hR.bind (hR.expectAs _ _) fun t => ite (hR.fail _ _) (hR.bind hR.get fun s => ite (hR.fail _ _) ?_)
    refine hR.bind (hR.expect _) fun _ => hR.bind hR.literal fun value =>
      hR.bind (modify fun s => hR.tags s _) fun _ => hR.bind (hR.optional _) fun _ => ite ih ?_
    exact hR.bind (hR.expect _) fun _ => hR.pure _

theorem optionalTags (reserved : List String) : Keeps R (optionalTags reserved) :=
  hR.bind (hR.optional _) fun _ => ite (hR.pure _) (hR.bind (hR.optional _) fun _ => ite (hR.pure _)
    (hR.bind hR.get fun s => hR.tagEntries reserved s.rest.length))

/-! ## Operands -/

theorem orStop (x : Readback α) : Keeps R (orStop x) := by
  unfold Parser.orStop
  split
  · exact hR.pure _
  · exact hR.throw _

omit hR in
theorem changeBlock {f : Block → Except BlockFault α × Block} {s : ParserState} (h : R s (s.withBlock (f s.block).2)) :
    R s (changeBlock f s).2 := by
  rw [changeBlock_apply]
  exact h

theorem bindReference (r : Registry) (ref : Reference) (t : Ty) : Keeps R (Parser.bind r ref t) := by
  intro s
  refine hR.bindAt (hR.refl s) fun a u h => ?_
  cases h
  dsimp only
  cases found : s.block.lookup ref.name with
  | none =>
    refine changeBlock ?_
    cases added : s.block.addInput (some (.text ref.name)) (.type t) with
    | error e => simp only [orUnchanged, added]; exact hR.refl s
    | ok answer => simp only [orUnchanged, added]; exact hR.input s _ t found answer.1 answer.2 added
  | some id =>
    refine hR.bind (hR.orStop _) (fun ok => ite (hR.pure id) ?_) s
    exact hR.bind (hR.orStop _) fun _ => hR.bind (hR.orStop _) fun _ => hR.fail _ _

theorem bindAll (r : Registry) (refs : List Reference) (types : List Ty) : Keeps R (bindAll r refs types) := by
  induction refs generalizing types with
  | nil =>
    cases types with
    | nil => exact hR.pure _
    | cons t ts => exact hR.throw _
  | cons ref refs ih =>
    cases types with
    | nil => exact hR.throw _
    | cons t ts => exact hR.bind (hR.bindReference r ref t) fun id => hR.bind (ih ts) fun ids => hR.pure (id :: ids)

theorem boundOperands (env : ParserEnv) (kind : Kind) (operands : List (Reference × Bool)) :
    Keeps R (boundOperands env kind operands) :=
  hR.bind (hR.optionalTags _) fun _ => hR.bind (hR.countedTypes _ _) fun _ => hR.bind (hR.intern trivial nofun) fun _ =>
    hR.bindAll _ _ _

theorem component : Keeps R component := by
  refine hR.bind hR.optionalOperand fun o => ?_
  cases o with
  | some ref => exact hR.pure _
  | none =>
    refine hR.bind (hR.peek 0) fun t => ite (hR.fail _ _) (hR.bind (hR.integerOf t) fun n => ite ?_ (hR.fail _ _))
    exact hR.bind hR.advance fun _ => hR.pure _

theorem components (room : Nat) : Keeps R (components room) := by
  induction room with
  | zero => exact hR.pure _
  | succ room ih =>
    exact hR.bind hR.component fun c => ite (hR.pure _) (hR.bind (hR.optional _) fun _ => ite (hR.pure _)
      (hR.bind ih fun cs => hR.pure (c :: cs)))

theorem accessorList : Keeps R accessorList :=
  hR.bind (hR.optional _) fun _ => ite (hR.pure _) (hR.bind (hR.optional _) fun _ => ite (hR.pure _)
    (hR.bind (hR.components _) fun _ => hR.bind (hR.expect _) fun _ => hR.pure _))

theorem slotAccessor (slot : Slot) : Keeps R (slotAccessor slot) := ite hR.accessorList (hR.pure _)

theorem slotOperands (kind : Kind) (slots : List Slot) (ref : Reference) : Keeps R (slotOperands kind slots ref) := by
  induction slots generalizing ref with
  | nil => exact hR.fail _ _
  | cons slot slots ih =>
    exact hR.bind (hR.slotAccessor slot) fun _ => hR.bind (hR.optional _) fun _ => ite (hR.pure _)
      (hR.bind hR.operand fun next => hR.bind (ih next) fun others => hR.pure _)

theorem operandList (kind : Kind) : Keeps R (operandList kind) := by
  refine hR.bind hR.optionalOperand fun o => ?_
  cases o with
  | none => exact hR.pure _
  | some ref => exact hR.slotOperands kind _ ref

theorem missingAngle (env : ParserEnv) (kind : Kind) : Keeps R (missingAngle env kind) :=
  hR.bind hR.location fun l => ite
    (hR.bind (modify fun s => hR.report s _) fun _ => hR.bind (hR.recordEvent _) fun _ => hR.pure _) (hR.fail _ l)

theorem angleInside (env : ParserEnv) (kind : Kind) : Keeps R (angleInside env kind) := by
  refine hR.bind hR.optionalFloat fun x => ?_
  cases x with
  | some x => exact hR.pure _
  | none =>
    refine hR.bind hR.optionalOperand fun o => ?_
    cases o with
    | some ref => exact hR.pure _
    | none => exact hR.missingAngle env kind

theorem angle (env : ParserEnv) (kind : Kind) : Keeps R (angle env kind) :=
  hR.bind (hR.optional _) fun _ => ite (hR.pure _) (hR.bind (hR.angleInside env kind) fun found =>
    hR.bind (hR.expect _) fun _ => hR.pure found)

theorem optionalAngle (env : ParserEnv) (kind : Kind) : Keeps R (optionalAngle env kind) :=
  ite (hR.angle env kind) (hR.pure _)

theorem operandGroup (env : ParserEnv) (kind : Kind) : Keeps R (operandGroup env kind) :=
  hR.bind (hR.optionalAngle env kind) fun _ => hR.bind hR.location fun _ => hR.bind (hR.operandList kind) fun _ =>
    hR.bind (hR.require _ _ _) fun _ => hR.bind (modify fun s => hR.tags s _) fun _ =>
    hR.bind (hR.boundOperands env kind _) fun _ => hR.bind (hR.arrowTypes _) fun _ =>
    hR.bind hR.get fun _ => hR.pure _

/-! ## Calls -/

theorem arguments (fuel : Nat) : Keeps R (arguments fuel) := by
  induction fuel with
  | zero => exact hR.pure _
  | succ fuel ih =>
    exact hR.bind (hR.optional _) fun _ => ite (hR.pure _) (hR.bind hR.operand fun _ =>
      hR.bind hR.accessorList fun _ => hR.bind ih fun _ => hR.pure _)

theorem checkSegments (sizes : List Nat) : Keeps R (checkSegments sizes) := ite (hR.pure _) (hR.throw _)

theorem callForm (env : ParserEnv) (kind : Kind) : Keeps R (callForm env kind) :=
  hR.bind hR.symbol fun _ => hR.bind (hR.expect _) fun _ => hR.bind (hR.integer _) fun _ =>
    hR.bind hR.get fun s => hR.bind (hR.arguments s.rest.length) fun _ => hR.bind (hR.expect _) fun _ =>
    hR.bind (hR.checkSegments _) fun _ => hR.bind (modify fun s => hR.tags s _) fun _ =>
    hR.bind (hR.boundOperands env kind _) fun _ => hR.bind (hR.expect _) fun _ =>
    hR.bind (hR.typeExpr _) fun _ => hR.bind hR.get fun _ => hR.pure _

/-! ## Instructions -/

theorem operationBody (env : ParserEnv) (kind : Kind) : Keeps R (operationBody env kind) :=
  ite (hR.callForm env kind) (hR.operandGroup env kind)

theorem moreResultNames (fuel : Nat) : Keeps R (moreResultNames fuel) := by
  induction fuel with
  | zero => exact hR.pure _
  | succ fuel ih =>
    exact hR.bind (hR.optional _) fun _ => ite (hR.pure _) (hR.bind (hR.expectAs _ _) fun t =>
      hR.bind ih fun ts => hR.pure (t :: ts))

theorem resultNames : Keeps R resultNames := by
  refine hR.bind (hR.optional _) fun o => ?_
  cases o with
  | none => exact hR.pure _
  | some t =>
    exact hR.bind hR.get fun s => hR.bind (hR.moreResultNames s.rest.length) fun ts =>
      hR.bind (hR.expect _) fun _ => hR.pure (t :: ts)

theorem mnemonic (env : ParserEnv) (expected : Option Kind) : Keeps R (mnemonic env expected) := by
  refine hR.bind (hR.expectAs _ _) fun t => ?_
  cases expected with
  | some kind => exact ite (hR.pure _) (hR.fail _ _)
  | none =>
    simp only
    split
    · exact hR.pure _
    · exact hR.fail _ _

theorem checkResultCount (defined : Nat) (names : List Token) : Keeps R (checkResultCount defined names) := by
  cases names with
  | nil => exact hR.pure _
  | cons t ts => exact hR.require _ _ _

theorem checkResultNames (seen : List String) (names : List Token) : Keeps R (checkResultNames seen names) := by
  induction names generalizing seen with
  | nil => exact hR.pure _
  | cons t ts ih => exact hR.bind hR.get fun s => hR.bind (hR.require _ _ _) fun _ => ih _

end Frame

end GateAsm.Parser
