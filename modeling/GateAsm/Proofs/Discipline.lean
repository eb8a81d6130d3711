import GateAsm.Proofs.Created
import GateAsm.Proofs.Frame

/-!
# What parsers report

A parser that succeeds reports nothing, the angle of a rotation apart, and one that stops has reported the
error that it stops with, behind warnings at most, at a place of the text. `Parser.Obeys` says so of a parser;
each building block of parsers has one lemma here, with what it says about the answer.
-/

namespace GateAsm

/-! ## Places -/

namespace TokenStream

def Places (all : TokenStream) (l : Location) : Prop := ∃ t ∈ all.toList, t.location = l

def LongInteger (all : TokenStream) : Prop :=
  ∃ t ∈ all.tokens, t.kind = .int ∧ maxIntegerDigits < (Floating.splitSign t.text.toList).2.length

theorem mem_toList {all : TokenStream} {t : Token} (h : t ∈ all.tokens) : t ∈ all.toList := List.mem_append_left _ h

theorem mem_tokens {all : TokenStream} {t : Token} (h : t ∈ all.toList) (hk : t.kind ≠ .endOfText) :
    t ∈ all.tokens := by
  rcases List.mem_append.mp h with h | h
  · exact h
  · rw [List.mem_singleton.mp h] at hk
    exact absurd rfl hk

end TokenStream

/-- A value in scope has a type that cannot be shown, for this reason. -/
def Block.Conceals (b : Block) (m : Mismatch) : Prop :=
  ∃ e ∈ b.scope, ∃ t : Ty, b.typeOf e.2 = .type t ∧ t.unshown? = some m

theorem Ty.conceals_of_shown {b : Block} {t : Ty} (h : t.unshown? = none) :
    ∀ m, t.unshown? = some m → b.Conceals m := by
  intro m hm
  rw [h] at hm
  cases hm

/-- What a parser is given: the tokens of a text, spelled as the lexer spells them, and the block below which
they are read. -/
structure ParserInput extends TokenStream where
  block : Block
  spelled : ∀ w ∈ tokens.map Token.word, w.Spelled

theorem ParserInput.visible (all : ParserInput) : Parser.VisibleTokens all.tokens :=
  Reading.visible_of_spelled all.spelled

/-- The state stands in the text, and the values of its block have types, which can be shown unless the block that
was given has the like. -/
structure ParserState.In (all : ParserInput) (s : ParserState) : Prop where
  rest : s.rest <:+ all.tokens
  endLocation : s.endLocation = all.endLocation
  wellScoped : s.block.WellScoped
  types : s.block.TypedAs fun a => ∃ t : Ty, a = .type t ∧ ∀ m, t.unshown? = some m → all.block.Conceals m

structure Reference.In (all : ParserInput) (r : Reference) : Prop where
  place : all.Places r.location
  visible : Block.Visible r.name

section
variable {all : ParserInput} {s : ParserState}

theorem ParserState.In.ahead (h : s.In all) (n : Nat) : s.ahead n ∈ all.toList := by
  unfold ParserState.ahead
  cases hn : s.rest[n]? with
  | some t => exact TokenStream.mem_toList (h.rest.subset (List.mem_of_getElem? hn))
  | none =>
    have : s.endToken = all.endToken := by rw [endToken, h.endLocation]; rfl
    exact List.mem_append_right _ (List.mem_singleton.mpr this)

theorem ParserState.In.drop (h : s.In all) (n : Nat) : (s.facing (s.rest.drop n)).In all :=
  ⟨(List.drop_suffix _ _).trans h.rest, h.endLocation, h.wellScoped, h.types⟩

end

theorem Block.HoldsTypes.lookup {b : Block} (h : b.HoldsTypes) {n : String} {id : Nat} (hl : b.lookup n = some id) :
    ∃ t : Ty, b.typeOf id = .type t :=
  h.typedAs.lookup hl

theorem Block.TypedAs.addResults {b b' : Block} {P : Attr → Prop} {items : List (Attr × Option Label)} {ids : List Nat}
    (hb : b.WellScoped) (ht : b.TypedAs P) (hitems : ∀ x ∈ items, P x.1) (h : b.addResults items = (.ok ids, b')) :
    b'.TypedAs P := by
  induction items generalizing b ids with
  | nil =>
    cases h
    exact ht
  | cons item items ih =>
    obtain ⟨type, name⟩ := item
    obtain ⟨holds, others⟩ := List.forall_mem_cons.mp hitems
    simp only [Block.addResults] at h
    split at h
    · cases h
    · next id b₁ hadd =>
      obtain ⟨-, l, hadds⟩ := Block.addValue_ok hadd
      have one : b₁.TypedAs P := by
        intro e he
        rw [hadds.scope] at he
        rcases List.mem_append.mp he with he | he
        · rw [hadds.extends.typeOf e.2 (hb e he).1]
          exact ht e he
        · rw [List.mem_singleton.mp he]
          exact hadds.typeOf.symm ▸ holds
      split at h
      · cases h
      · next hrest =>
        cases h
        exact ih (hadds.wellScoped hb) one others hrest

theorem Block.TypedAs.createOperation {b b' : Block} {P : Attr → Prop} {st : OperationState}
    {names : Option (List (Option Label))} {n : Nat} (hb : b.WellScoped) (ht : b.TypedAs P)
    (hst : ∀ a ∈ st.resultTypes, P a) (h : b.createOperation st names = (.ok n, b')) :
    b'.TypedAs P := by
  simp only [Block.createOperation] at h
  split at h
  · cases h
  · split at h
    · cases h
    · next hadd =>
      split at h
      · cases h
        intro e he
        have typed := ht.addResults hb (fun x hx => hst x.1 (List.of_mem_zip hx).1) hadd e he
        rwa [← Block.typeOf_link] at typed
      · cases h

namespace Parser

/-! ## Outcomes -/

def Warns (s t : ParserState) : Prop := ∃ ws : List Diagnostic, (∀ d ∈ ws, d.severity = .warning) ∧
  t.diagnostics = s.diagnostics ++ ws

/-- The failures that are not reported. An integer literal is too long to be read, there are more operands than
sizes of segments can count, or a message would show a value of the block whose type cannot be shown. -/
def Unreported (tokens : TokenStream) (b : Block) : ParseFailure → Prop
  | .integerTooLong => tokens.LongInteger
  | .segmentTooLarge => segmentLimit ≤ tokens.tokens.length
  | .type (.mismatch m) => b.Conceals m
  | _ => False

/-- What stopping with a failure means: an error in the text was reported last, behind warnings at most, or nothing
but warnings was. -/
def Refuses (all : ParserInput) (s t : ParserState) : ParseFailure → Prop
  | .error e => all.Places e.location ∧
      ∃ u, Warns s u ∧ t.diagnostics = u.diagnostics ++ [⟨.error, e.location, e.message⟩]
  | f => Unreported all.toTokenStream all.block f ∧ Warns s t

/-- An outcome from a state: an answer as `Q` says, or a failure. -/
def Ends {α : Type} (all : ParserInput) (Q : α → ParserState → Prop) (s : ParserState) :
    Except ParseFailure α × ParserState → Prop
  | (.ok a, t) => t.In all ∧ Warns s t ∧ Q a t
  | (.error e, t) => Refuses all s t e

/-- The parser reports nothing if it succeeds, with an answer as `P` says. -/
def Obeys {α : Type} (all : ParserInput) (p : Parser α) (P : α → Prop) : Prop :=
  ∀ s, s.In all → Ends all (fun a t => P a ∧ t.diagnostics = s.diagnostics) s (p s)

section
variable {all : ParserInput} {s t u : ParserState} {α β : Type} {p : Parser α} {f : α → Parser β}

theorem Warns.of_eq (h : t.diagnostics = s.diagnostics) : Warns s t := ⟨[], nofun, by rw [h, List.append_nil]⟩

theorem Warns.trans (h : Warns s t) (h' : Warns t u) : Warns s u := by
  obtain ⟨ws, hw, hs⟩ := h
  obtain ⟨vs, hv, ht⟩ := h'
  refine ⟨ws ++ vs, fun d hd => ?_, by rw [ht, hs, List.append_assoc]⟩
  rcases List.mem_append.mp hd with hd | hd
  · exact hw d hd
  · exact hv d hd

theorem Refuses.after (h : Warns s t) {e : ParseFailure} (he : Refuses all t u e) : Refuses all s u e := by
  cases e with
  | error e =>
    obtain ⟨place, v, hv, hu⟩ := he
    exact ⟨place, v, h.trans hv, hu⟩
  | _ => exact ⟨he.1, h.trans he.2⟩

theorem Ends.bind {P : α → ParserState → Prop} {Q : β → ParserState → Prop} (hp : Ends all P s (p s))
    (hf : ∀ a u, Yields p s a u → u.In all → P a u → Ends all Q u (f a u)) : Ends all Q s ((p >>= f) s) := by
  rw [bind_apply]
  cases h : p s with
  | mk answer u =>
    rw [h] at hp
    cases answer with
    | error e => exact hp
    | ok a =>
      obtain ⟨inside, warned, ha⟩ := hp
      have second := hf a u h inside ha
      show Ends all Q s (f a u)
      cases h' : f a u with
      | mk answer v =>
        rw [h'] at second
        cases answer with
        | error e => exact second.after warned
        | ok b => exact ⟨second.1, warned.trans second.2.1, second.2.2⟩

theorem Ends.mono {P Q : α → ParserState → Prop} {r : Except ParseFailure α × ParserState} (h : Ends all P s r)
    (hPQ : ∀ a t, P a t → Q a t) : Ends all Q s r := by
  obtain ⟨answer, t⟩ := r
  cases answer with
  | error e => exact h
  | ok a => exact ⟨h.1, h.2.1, hPQ a t h.2.2⟩

theorem Ends.yields {P Q : α → ParserState → Prop} (h : Ends all P s (p s))
    (hPQ : ∀ a t, Yields p s a t → t.In all → P a t → Q a t) : Ends all Q s (p s) := by
  cases hp : p s with
  | mk answer t =>
    rw [hp] at h
    cases answer with
    | error e => exact h
    | ok a => exact ⟨h.1, h.2.1, hPQ a t hp h.1 h.2.2⟩

theorem Ends.quiet {P : α → Prop} {a : α} (ht : t.In all) (hd : t.diagnostics = s.diagnostics) (ha : P a) :
    Ends all (fun a t => P a ∧ t.diagnostics = s.diagnostics) s (.ok a, t) := ⟨ht, .of_eq hd, ha, hd⟩

/-! ## Control -/

theorem obeys_pure {P : α → Prop} {a : α} (h : P a) : Obeys all (pure a) P := fun _ hs => .quiet hs rfl h

theorem Obeys.bind {P : α → Prop} {Q : β → Prop} (hp : Obeys all p P) (hf : ∀ a, P a → Obeys all (f a) Q) :
    Obeys all (p >>= f) Q := by
  intro s hs
  refine (hp s hs).bind fun a u _ hu ha => (hf a ha.1 u hu).mono fun b t hb => ?_
  exact ⟨hb.1, hb.2.trans ha.2⟩

theorem Obeys.mono {P Q : α → Prop} (h : Obeys all p P) (hPQ : ∀ a, P a → Q a) : Obeys all p Q :=
  fun s hs => (h s hs).mono fun a _ ha => ⟨hPQ a ha.1, ha.2⟩

theorem Obeys.map {P : α → Prop} {Q : β → Prop} {g : α → β} (hp : Obeys all p P) (hg : ∀ a, P a → Q (g a)) :
    Obeys all (g <$> p) Q := by
  rw [map_eq_pure_bind]
  exact hp.bind fun a ha => obeys_pure (hg a ha)

theorem obeys_ite {c : Prop} [Decidable c] {q : Parser α} {P : α → Prop} (hp : c → Obeys all p P)
    (hq : ¬c → Obeys all q P) : Obeys all (if c then p else q) P := by
  split
  · next h => exact hp h
  · next h => exact hq h

theorem obeys_get : Obeys all (get : Parser ParserState) fun _ => True := fun _ hs => .quiet hs rfl trivial

theorem obeys_modify {g : ParserState → ParserState} (hin : ∀ s, s.In all → (g s).In all)
    (hd : ∀ s, (g s).diagnostics = s.diagnostics) : Obeys all (modify g : Parser PUnit) fun _ => True :=
  fun s hs => .quiet (hin s hs) (hd s) trivial

end

/-! ## Single tokens -/

section
variable {all : ParserInput} {α : Type}

theorem obeys_peek (n : Nat) : Obeys all (peek n) (· ∈ all.toList) := fun _ hs => .quiet hs rfl (hs.ahead n)

theorem obeys_advance : Obeys all advance (· ∈ all.toList) := fun _ hs => .quiet (hs.drop 1) rfl (hs.ahead 0)

theorem obeys_location : Obeys all location all.Places :=
  fun _ hs => .quiet hs rfl ⟨_, hs.ahead 0, rfl⟩

theorem ends_fail {cause : ParseCause} {l : Location} {Q : α → ParserState → Prop} {s : ParserState}
    (hl : all.Places l) : Ends all Q s (fail cause l s) := ⟨hl, s, .of_eq rfl, rfl⟩

theorem obeys_fail {cause : ParseCause} {l : Location} {P : α → Prop} (hl : all.Places l) :
    Obeys all (fail cause l) P :=
  fun _ _ => ends_fail hl

theorem obeys_failAt {cause : ParseCause} {t : Token} {P : α → Prop} (ht : t ∈ all.toList) :
    Obeys all (fail cause t.location) P := obeys_fail ⟨t, ht, rfl⟩

theorem obeys_require {ok : Bool} {cause : ParseCause} {l : Location} (hl : all.Places l) :
    Obeys all (require ok cause l) fun _ => ok = true := by
  unfold require
  exact obeys_ite (fun h => obeys_pure h) fun _ => obeys_fail hl

def TokenOf (all : ParserInput) (k : TokenKind) (t : Token) : Prop := t ∈ all.toList ∧ t.kind = k

theorem obeys_optional (k : TokenKind) : Obeys all (optional k) fun o => ∀ t, o = some t → TokenOf all k t := by
  intro s hs
  unfold optional
  refine (obeys_peek 0 s hs).bind fun t u h hu ht => ?_
  obtain ⟨rfl, rfl⟩ := yields_peek.mp h
  split
  · next hk =>
    refine (obeys_advance u hu).bind fun x v h hv hx => ?_
    obtain ⟨rfl, rfl⟩ := yields_advance.mp h
    refine .quiet hv rfl fun y hy => ?_
    cases hy
    exact ⟨hx.1, hk⟩
  · exact .quiet hu rfl nofun

theorem obeys_expectAs (k : TokenKind) (wanted : String) : Obeys all (expectAs k wanted) (TokenOf all k) := by
  intro s hs
  unfold expectAs
  refine (obeys_peek 0 s hs).bind fun t u h hu ht => ?_
  obtain ⟨rfl, rfl⟩ := yields_peek.mp h
  split
  · next hk => exact .quiet (hu.drop 1) rfl ⟨ht.1, hk⟩
  · exact obeys_failAt ht.1 u hu

theorem obeys_expect (k : TokenKind) : Obeys all (expect k) (TokenOf all k) := obeys_expectAs k _

theorem obeys_expectEnd : Obeys all expectEnd fun _ => True :=
  (obeys_expect _).bind fun _ _ => obeys_pure trivial

theorem obeys_interned (t : Ty) : Obeys all (intern t) fun u => u.same t = true := by
  intro s hs
  have run : Yields (intern t) s (s.context.intern t).1 (s.interning t) := yields_intern.mpr ⟨rfl, rfl⟩
  have same := TypeContext.intern_same s.context t
  rw [run]
  unfold ParserState.interning
  split
  · exact .quiet ⟨hs.rest, hs.endLocation, hs.wellScoped, hs.types⟩ rfl same
  · exact .quiet ⟨hs.rest, hs.endLocation, hs.wellScoped, hs.types⟩ rfl same

theorem obeys_intern (t : Ty) : Obeys all (intern t) fun _ => True := (obeys_interned t).mono fun _ _ => trivial

theorem obeys_integerOf {t : Token} (ht : TokenOf all .int t) : Obeys all (integerOf t) fun _ => True := by
  unfold integerOf
  intro s hs
  dsimp only
  split
  · next h => exact ⟨⟨t, TokenStream.mem_tokens ht.1 (by rw [ht.2]; decide), ht.2, h⟩, .of_eq rfl⟩
  · exact .quiet hs rfl trivial

/-! ## Types -/

theorem obeys_malformed {α : Type} {keyword : String} {P : α → Prop} : Obeys all (malformed keyword : Parser α) P :=
  obeys_location.bind fun _ hl => obeys_fail hl

theorem obeys_argumentToken (keyword : String) (k : TokenKind) : Obeys all (argumentToken keyword k) fun _ => True :=
  (obeys_optional k).bind fun _ _ => obeys_ite (fun _ => obeys_malformed) fun _ => obeys_pure trivial

theorem obeys_registerArguments (keyword : String) : Obeys all (registerArguments keyword) fun _ => True := by
  refine (obeys_argumentToken keyword _).bind fun _ _ => (obeys_optional .int).bind fun size hsize =>
    (obeys_argumentToken keyword _).bind fun _ _ => ?_
  cases size with
  | none => exact obeys_intern _
  | some t =>
    have ht := hsize t rfl
    exact (obeys_integerOf ht).bind fun n _ => obeys_ite (fun _ => obeys_failAt ht.1) fun _ => obeys_intern _

theorem obeys_controlPrefix (keyword : String) :
    Obeys all (controlPrefix keyword) fun o => ∀ t, o = some t → TokenOf all .int t := by
  refine (obeys_optional .int).bind fun o ho => ?_
  cases o with
  | none => exact obeys_pure nofun
  | some t => exact (obeys_argumentToken keyword _).bind fun _ _ => obeys_pure ho

theorem obeys_wordAhead (keyword : String) : Obeys all (wordAhead keyword) (· ∈ all.toList) :=
  (obeys_peek 0).bind fun _ ht => obeys_ite (fun _ => obeys_malformed) fun _ => obeys_pure ht

theorem obeys_optionalCount (keyword : String) {o : Option Token} (ho : ∀ t, o = some t → TokenOf all .int t) :
    Obeys all (optionalCount keyword o) fun _ => True := by
  cases o with
  | none => exact obeys_pure trivial
  | some t =>
    refine Obeys.map (P := fun _ => True) ?_ fun _ _ => trivial
    exact (obeys_integerOf (ho t rfl)).bind fun n _ => obeys_ite (fun _ => obeys_failAt (ho t rfl).1) fun _ =>
      obeys_pure trivial

theorem obeys_controlledType (base : Ty) (count : Option Nat) {l : Location} (hl : all.Places l) :
    Obeys all (controlledType base count l) fun _ => True := by
  unfold controlledType
  split
  · exact obeys_intern _
  · exact obeys_fail hl

theorem obeys_controlledArguments (keyword : String) {inner : Parser Ty} (hi : Obeys all inner fun _ => True) :
    Obeys all (controlledArguments keyword inner) fun _ => True :=
  (obeys_argumentToken keyword _).bind fun _ _ => (obeys_controlPrefix keyword).bind fun _ hcount =>
    (obeys_wordAhead keyword).bind fun t ht => hi.bind fun base _ => (obeys_argumentToken keyword _).bind fun _ _ =>
    (obeys_optionalCount keyword hcount).bind fun n _ => obeys_controlledType base n ⟨t, ht, rfl⟩

theorem obeys_typeAt (r : Registry) {t : Token} (ht : t ∈ all.toList) {inner : Parser Ty}
    (hi : Obeys all inner fun _ => True) : Obeys all (typeAt r t inner) fun _ => True := by
  unfold typeAt
  split
  · exact obeys_intern _
  · split
    · exact obeys_failAt ht
    · exact obeys_intern _
    · exact obeys_intern _
    · exact obeys_intern _
    · exact obeys_intern _
    · exact obeys_registerArguments _
    · exact obeys_controlledArguments _ hi

theorem obeys_typeWithin (r : Registry) (fuel : Nat) : Obeys all (typeWithin r fuel) fun _ => True := by
  induction fuel with
  | zero => exact (obeys_peek 0).bind fun _ ht => obeys_failAt ht
  | succ fuel ih =>
    exact (obeys_peek 0).bind fun t ht => obeys_ite (fun _ => obeys_failAt ht) fun _ =>
      obeys_advance.bind fun _ _ => obeys_typeAt r ht ih

/-- The types of a text have few digits, whatever types the context has kept for them. -/
theorem obeys_typeExpr (r : Registry) : Obeys all (typeExpr r) fun t => t.unshown? = none := by
  intro s hs
  have read : Obeys all (typeExpr r) fun _ => True := obeys_get.bind fun s _ => obeys_typeWithin r s.rest.length
  refine (read s hs).yields fun t u h _ hd => ⟨?_, hd.2⟩
  obtain ⟨w, ty, rest, ⟨used, hused, hwords⟩, hty, rfl, -⟩ := yields_typeExpr.mp h
  have spelled : ∀ x ∈ w.words, x.Spelled := by
    intro x hx
    obtain ⟨y, hy, rfl⟩ := List.mem_map.mp (hwords ▸ hx)
    exact all.spelled _ (List.mem_map_of_mem (hs.rest.subset (hused ▸ List.mem_append_left _ hy)))
  rw [Ty.unshown?_eq_of_same (TypeContext.keep_same _ ty)]
  exact (Ty.readable_of_ty? spelled hty).unshown?_eq

theorem obeys_moreTypes (r : Registry) (fuel : Nat) :
    Obeys all (moreTypes r fuel) fun ts => ∀ t ∈ ts, t.unshown? = none := by
  induction fuel with
  | zero => exact obeys_pure nofun
  | succ fuel ih =>
    exact (obeys_optional .comma).bind fun _ _ => obeys_ite (fun _ => obeys_pure nofun) fun _ =>
      (obeys_typeExpr r).bind fun _ ht => ih.bind fun _ hts => obeys_pure (List.forall_mem_cons.mpr ⟨ht, hts⟩)

theorem obeys_typeList (r : Registry) : Obeys all (typeList r) fun ts => ∀ t ∈ ts, t.unshown? = none :=
  (obeys_typeExpr r).bind fun _ ht => obeys_get.bind fun s _ => (obeys_moreTypes r s.rest.length).bind fun _ hts =>
    obeys_pure (List.forall_mem_cons.mpr ⟨ht, hts⟩)

theorem obeys_colonTypes (r : Registry) : Obeys all (colonTypes r) fun ts => ∀ t ∈ ts, t.unshown? = none :=
  (obeys_optional .colon).bind fun _ _ => obeys_ite (fun _ => obeys_pure nofun) fun _ => obeys_typeList r

theorem obeys_arrowTypes (r : Registry) : Obeys all (arrowTypes r) fun ts => ∀ t ∈ ts, t.unshown? = none :=
  (obeys_optional .arrow).bind fun _ _ => obeys_ite (fun _ => obeys_pure nofun) fun _ => obeys_typeList r

theorem obeys_countedTypes (r : Registry) (expected : Nat) :
    Obeys all (countedTypes r expected) fun types => types.length = expected ∧ ∀ t ∈ types, t.unshown? = none :=
  obeys_location.bind fun _ hl => (obeys_colonTypes r).bind fun _ hts => (obeys_require hl).bind fun _ h =>
    obeys_pure ⟨of_decide_eq_true h, hts⟩

/-! ## Literals and tags -/

theorem obeys_symbol : Obeys all symbol fun _ => True := (obeys_expect _).bind fun _ _ => obeys_pure trivial

theorem obeys_integer (wanted : String) : Obeys all (integer wanted) fun _ => True :=
  (obeys_expectAs .int wanted).bind fun _ ht => obeys_integerOf ht

theorem obeys_finiteFloat {t : Token} (ht : t ∈ all.toList) : Obeys all (finiteFloat t) fun _ => True := by
  unfold finiteFloat
  split
  · exact obeys_ite (fun _ => obeys_pure trivial) fun _ => obeys_failAt ht
  · exact obeys_failAt ht

theorem obeys_literals (fuel : Nat) :
    (Obeys all (literalWithin fuel) fun _ => True) ∧ (Obeys all (literalsWithin fuel) fun _ => True) := by
  induction fuel with
  | zero => exact ⟨(obeys_peek 0).bind fun _ ht => obeys_failAt ht, obeys_pure trivial⟩
  | succ fuel ih =>
    obtain ⟨one, more⟩ := ih
    constructor
    · refine (obeys_peek 0).bind fun t ht => ?_
      split
      · next hk => exact obeys_advance.bind fun _ _ => (obeys_integerOf ⟨ht, hk⟩).bind fun _ _ => obeys_pure trivial
      · exact obeys_advance.bind fun _ _ => (obeys_finiteFloat ht).bind fun _ _ => obeys_pure trivial
      · refine obeys_advance.bind fun _ _ => ?_
        split
        · exact obeys_pure trivial
        · exact obeys_failAt ht
      · exact obeys_symbol.bind fun _ _ => obeys_pure trivial
      · exact obeys_advance.bind fun _ _ => (obeys_optional _).bind fun _ _ => obeys_ite (fun _ => obeys_pure trivial)
          fun _ => one.bind fun _ _ => more.bind fun _ _ => (obeys_expect _).bind fun _ _ => obeys_pure trivial
      · exact obeys_ite (fun _ => obeys_advance.bind fun _ _ => obeys_pure trivial) fun _ => obeys_failAt ht
      · exact obeys_failAt ht
    · exact (obeys_optional _).bind fun _ _ => obeys_ite (fun _ => obeys_pure trivial) fun _ =>
        one.bind fun _ _ => more.bind fun _ _ => obeys_pure trivial

theorem obeys_literal : Obeys all literal fun _ => True := obeys_get.bind fun s _ => (obeys_literals s.rest.length).1

theorem obeys_setTags (g : ParserState → List (String × Attr)) :
    Obeys all (modify fun s => { s with tags := g s }) fun _ => True :=
  obeys_modify (fun _ hs => ⟨hs.rest, hs.endLocation, hs.wellScoped, hs.types⟩) fun _ => rfl

theorem obeys_tagEntries (reserved : List String) (fuel : Nat) :
    Obeys all (tagEntries reserved fuel) fun _ => True := by
  induction fuel with
  | zero => exact (obeys_expectAs _ _).bind fun _ _ => obeys_pure trivial
  | succ fuel ih =>
    refine (obeys_expectAs _ _).bind fun t ht => obeys_ite (fun _ => obeys_failAt ht.1) fun _ =>
      obeys_get.bind fun _ _ => obeys_ite (fun _ => obeys_failAt ht.1) fun _ => ?_
    refine (obeys_expect _).bind fun _ _ => obeys_literal.bind fun _ _ => (obeys_setTags _).bind fun _ _ =>
      (obeys_optional _).bind fun _ _ => obeys_ite (fun _ => ih) fun _ => ?_
    exact (obeys_expect _).bind fun _ _ => obeys_pure trivial

theorem obeys_optionalTags (reserved : List String) : Obeys all (optionalTags reserved) fun _ => True :=
  (obeys_optional _).bind fun _ _ => obeys_ite (fun _ => obeys_pure trivial) fun _ =>
    (obeys_optional _).bind fun _ _ => obeys_ite (fun _ => obeys_pure trivial) fun _ =>
    obeys_get.bind fun s _ => obeys_tagEntries reserved s.rest.length

end

/-! ## References -/

section
variable {all : ParserInput}

theorem TokenOf.reference {t : Token} (h : TokenOf all .valueName t) : Reference.In all ⟨t.text, t.location⟩ :=
  ⟨⟨t, h.1, rfl⟩, all.visible t (TokenStream.mem_tokens h.1 (by rw [h.2]; decide)) h.2⟩

theorem obeys_optionalOperand : Obeys all optionalOperand fun o => ∀ r, o = some r → r.In all := by
  refine (obeys_optional _).bind fun o ho => obeys_pure fun r hr => ?_
  obtain ⟨t, rfl, rfl⟩ := Option.map_eq_some_iff.mp hr
  exact (ho t rfl).reference

theorem obeys_operand : Obeys all operand (Reference.In all) :=
  (obeys_expect _).bind fun _ ht => obeys_pure (ht.reference)

theorem obeys_component : Obeys all component fun x => ∀ r, x.2 = some r → r.In all := by
  refine obeys_optionalOperand.bind fun o ho => ?_
  cases o with
  | some r => exact obeys_pure ho
  | none =>
    refine (obeys_peek 0).bind fun t ht => obeys_ite (fun _ => obeys_failAt ht) fun hk => ?_
    have int : TokenOf all .int t := ⟨ht, by simpa using hk⟩
    exact (obeys_integerOf int).bind fun n _ => obeys_ite
      (fun _ => obeys_advance.bind fun _ _ => obeys_pure nofun) fun _ => obeys_failAt ht

theorem obeys_components (room : Nat) :
    Obeys all (components room) fun xs => ∀ x ∈ xs, ∀ r, x.2 = some r → r.In all := by
  induction room with
  | zero => exact obeys_pure nofun
  | succ room ih =>
    refine obeys_component.bind fun c hc => ?_
    have one : ∀ x ∈ [c], ∀ r, x.2 = some r → r.In all := fun x hx => List.mem_singleton.mp hx ▸ hc
    exact obeys_ite (fun _ => obeys_pure one) fun _ => (obeys_optional _).bind fun _ _ =>
      obeys_ite (fun _ => obeys_pure one) fun _ => ih.bind fun cs hcs => obeys_pure (List.forall_mem_cons.mpr ⟨hc, hcs⟩)

theorem obeys_accessorList : Obeys all accessorList fun x => ∀ r ∈ x.2, r.In all := by
  refine (obeys_optional _).bind fun _ _ => obeys_ite (fun _ => obeys_pure nofun) fun _ =>
    (obeys_optional _).bind fun _ _ => obeys_ite (fun _ => obeys_pure nofun) fun _ =>
    (obeys_components _).bind fun cs hcs => (obeys_expect _).bind fun _ _ => obeys_pure fun r hr => ?_
  obtain ⟨x, hx, hr⟩ := List.mem_filterMap.mp hr
  exact hcs x hx r hr

theorem obeys_slotOperands (kind : Kind) (slots : List Slot) {r : Reference} (hr : r.In all) :
    Obeys all (slotOperands kind slots r) fun os => ∀ o ∈ os, ∀ x ∈ o.operands, x.1.In all := by
  induction slots generalizing r with
  | nil => exact obeys_fail hr.place
  | cons slot slots ih =>
    have accessor : Obeys all (slotAccessor slot) fun x => ∀ r ∈ x.2, r.In all :=
      obeys_ite (fun _ => obeys_accessorList) fun _ => obeys_pure nofun
    refine accessor.bind fun a ha => ?_
    have here : ∀ x ∈ (SlotOperand.mk slot r a.1 a.2).operands, x.1.In all := by
      refine List.forall_mem_cons.mpr ⟨hr, fun x hx => ?_⟩
      obtain ⟨r', hr', rfl⟩ := List.mem_map.mp hx
      exact ha r' hr'
    refine (obeys_optional _).bind fun _ _ => obeys_ite (fun _ => obeys_pure ?_) fun _ =>
      obeys_operand.bind fun next hnext => (ih hnext).bind fun others hothers => obeys_pure ?_
    · exact fun o ho => List.mem_singleton.mp ho ▸ here
    · exact List.forall_mem_cons.mpr ⟨here, hothers⟩

theorem obeys_operandList (kind : Kind) :
    Obeys all (operandList kind) fun os => ∀ o ∈ os, ∀ x ∈ o.operands, x.1.In all := by
  refine obeys_optionalOperand.bind fun o ho => ?_
  cases o with
  | none => exact obeys_pure nofun
  | some r => exact obeys_slotOperands kind _ (ho r rfl)

theorem obeys_arguments (fuel : Nat) :
    Obeys all (arguments fuel) fun as => ∀ a ∈ as, a.main.In all ∧ ∀ r ∈ a.references, r.In all := by
  induction fuel with
  | zero => exact obeys_pure nofun
  | succ fuel ih =>
    exact (obeys_optional _).bind fun _ _ => obeys_ite (fun _ => obeys_pure nofun) fun _ =>
      obeys_operand.bind fun r hr => obeys_accessorList.bind fun x hx => ih.bind fun others hothers =>
      obeys_pure (List.forall_mem_cons.mpr ⟨⟨hr, hx⟩, hothers⟩)

end

/-! ## Names -/

section
variable {all : ParserInput}

theorem obeys_shown (registry : Registry) {t : Ty} (ht : ∀ m, t.unshown? = some m → all.block.Conceals m) :
    Obeys all (orStop (registry.printEnv.shown (.type t))) fun _ => True := by
  have shown : registry.printEnv.shown (.type t) = Readback.ofAttr (Attr.type t).shown := rfl
  rw [shown, Attr.shown, Attr.unshown?]
  intro s hs
  cases h : t.unshown? with
  | none => exact .quiet hs rfl trivial
  | some m => exact ⟨ht m h, .of_eq rfl⟩

theorem obeys_bindReference (registry : Registry) {r : Reference} (hr : r.In all) {t : Ty} (ht : t.unshown? = none) :
    Obeys all (Parser.bind registry r t) fun _ => True := by
  intro s hs
  unfold Parser.bind
  rw [get_bind_apply]
  dsimp only
  cases hl : s.block.lookup r.name with
  | none =>
    -- a name that is not found is free: only a name that shows no value could be in scope unseen
    have free : s.block.inScope? (.text r.name) = none := by rw [← Block.lookup_eq hr.visible, hl]
    have added : orUnchanged (fun b => b.addInput (some (.text r.name)) (.type t)) s.block =
        (.ok s.block.values.length, s.block.withInput r.name t) := by
      simp only [orUnchanged, Block.addInput_text free]
    dsimp only
    rw [changeBlock_apply, added]
    exact .quiet ⟨hs.rest, hs.endLocation, Block.wellScoped_withInput hs.wellScoped,
      hs.types.withInput hs.wellScoped ⟨t, rfl, Ty.conceals_of_shown ht⟩⟩ rfl trivial
  | some id =>
    obtain ⟨prior, hprior, concealed⟩ := hs.types.lookup hl
    have same : (s.block.typeOf id).isType t = .ok (prior.same t) := by rw [hprior]; rfl
    dsimp only
    rw [same, hprior]
    have given := obeys_shown registry (Ty.conceals_of_shown (b := all.block) ht)
    exact Obeys.bind (P := fun _ => True) (obeys_pure trivial) (fun ok _ => obeys_ite (fun _ => obeys_pure trivial)
      fun _ => given.bind fun _ _ => (obeys_shown registry concealed).bind fun _ _ => obeys_fail hr.place) s hs

theorem obeys_bindAll (registry : Registry) {refs : List Reference} {types : List Ty} (hr : ∀ r ∈ refs, r.In all)
    (ht : ∀ t ∈ types, t.unshown? = none) (hlen : refs.length = types.length) :
    Obeys all (bindAll registry refs types) fun _ => True := by
  induction refs generalizing types with
  | nil =>
    cases types with
    | nil => exact obeys_pure trivial
    | cons t types => cases hlen
  | cons r refs ih =>
    cases types with
    | nil => cases hlen
    | cons t types =>
      obtain ⟨first, others⟩ := List.forall_mem_cons.mp hr
      obtain ⟨shown, rest⟩ := List.forall_mem_cons.mp ht
      exact (obeys_bindReference registry first shown).bind fun _ _ => (ih others rest (Nat.succ.inj hlen)).bind
        fun _ _ => obeys_pure trivial

theorem obeys_boundOperands (env : ParserEnv) (kind : Kind) {operands : List (Reference × Bool)}
    (h : ∀ x ∈ operands, x.1.In all) : Obeys all (boundOperands env kind operands) fun _ => True := by
  refine (obeys_optionalTags _).bind fun _ _ => (obeys_countedTypes _ _).bind fun types htypes =>
    (obeys_interned _).bind fun i hi => obeys_bindAll _ (fun r hr => ?_) ?_ ?_
  · obtain ⟨x, hx, rfl⟩ := List.mem_map.mp hr
    exact h x hx
  · intro t ht
    rcases Parser.mem_operandTypes ht with rfl | ht
    · exact Ty.unshown?_eq_of_same hi
    · exact htypes.2 t ht
  · rw [List.length_map, length_operandTypes, List.length_map]
    rw [List.filter_map, List.length_map, htypes.1]
    rfl

end

end Parser

end GateAsm
