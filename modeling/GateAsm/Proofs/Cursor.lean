import GateAsm.Proofs.Joined.Modules

/-!
# The cursor goes forward

The cursor of a state is the index of its current token in the stream; behind the last token it is the index of
the end token. No parser moves it backwards or past the end token, whether it succeeds or fails
(`Parser.Routine.forward`). An optional construct that is not there is not touched (`Parser.Optional.skips`), and
instructions, types and literals take a token at least. The fuel of types and literals is the number of tokens
that are left; more of it makes no difference, and so it is no limit to how deep they nest.
-/

namespace GateAsm

/-! ## Positions in a stream -/

namespace ParserState

structure At (s : ParserState) (all : TokenStream) (i : Nat) : Prop where
  within : i ≤ all.tokens.length
  rest : s.rest = all.tokens.drop i
  endLocation : s.endLocation = all.endLocation

/-- The cursor of the second state is where that of the first one is, or closer to the end token. -/
def Reaches (s t : ParserState) : Prop := ∀ all i, s.At all i → ∃ j, i ≤ j ∧ t.At all j

/-- The cursor of the second state is closer to the end token, by one token at least. -/
def Passes (s t : ParserState) : Prop := ∀ all i, s.At all i → ∃ j, i < j ∧ t.At all j

variable {s t u : ParserState} {all : TokenStream} {i j : Nat}

theorem start_at (all : TokenStream) (c : TypeContext) (b : Block) : (start all c b).At all 0 :=
  ⟨Nat.zero_le _, rfl, rfl⟩

theorem At.current (h : s.At all i) : all.toList[i]? = some (s.ahead 0) := by
  have ends : s.endToken = all.endToken := by rw [endToken, h.endLocation, TokenStream.endToken]
  rw [ahead, h.rest, List.getElem?_drop, Nat.add_zero, ends, TokenStream.toList]
  rcases Nat.lt_or_eq_of_le h.within with hi | rfl
  · rw [List.getElem?_append_left hi, List.getElem?_eq_getElem hi, Option.getD_some]
  · simp

theorem at_zero (s : ParserState) : s.At ⟨s.rest, s.endLocation⟩ 0 := ⟨Nat.zero_le _, rfl, rfl⟩

theorem At.index (h : s.At all i) : i + s.rest.length = all.tokens.length := by
  have := h.within
  rw [h.rest, List.length_drop]
  omega

theorem At.later {front : List Token} (h : s.At all i) (hrest : front ++ t.rest = s.rest)
    (hend : t.endLocation = s.endLocation) : t.At all (i + front.length) := by
  have index := h.index
  rw [← hrest, List.length_append] at index
  refine ⟨by omega, ?_, hend.trans h.endLocation⟩
  rw [← List.drop_drop, ← h.rest, ← hrest, List.drop_left]

theorem reaches_iff : s.Reaches t ↔ t.rest <:+ s.rest ∧ t.endLocation = s.endLocation := by
  constructor
  · intro h
    obtain ⟨j, -, hj⟩ := h _ 0 s.at_zero
    exact ⟨hj.rest ▸ List.drop_suffix j s.rest, hj.endLocation⟩
  · rintro ⟨⟨front, hrest⟩, hend⟩ all i h
    exact ⟨_, Nat.le_add_right i front.length, h.later hrest hend⟩

theorem passes_iff : s.Passes t ↔ s.Reaches t ∧ t.rest.length < s.rest.length := by
  constructor
  · intro h
    refine ⟨fun all i h' => ?_, ?_⟩
    · obtain ⟨j, hj, hat⟩ := h all i h'
      exact ⟨j, hj.le, hat⟩
    · obtain ⟨j, hj, hat⟩ := h _ 0 s.at_zero
      have index : j + t.rest.length = s.rest.length := hat.index
      omega
  · rintro ⟨reaches, fewer⟩ all i h
    obtain ⟨j, hj, hat⟩ := reaches all i h
    have := h.index
    have := hat.index
    exact ⟨j, by omega, hat⟩

theorem Passes.reaches (h : s.Passes t) : s.Reaches t := (passes_iff.mp h).1

theorem Passes.fewer (h : s.Passes t) : t.rest.length < s.rest.length := (passes_iff.mp h).2

theorem Reaches.refl (s : ParserState) : s.Reaches s := fun _ i h => ⟨i, Nat.le_refl i, h⟩

theorem Reaches.stays (hrest : t.rest = s.rest) (hend : t.endLocation = s.endLocation) : s.Reaches t :=
  reaches_iff.mpr ⟨hrest ▸ List.suffix_refl _, hend⟩

theorem Reaches.trans (h : s.Reaches t) (h' : t.Reaches u) : s.Reaches u := by
  intro all i hi
  obtain ⟨j, hj, hat⟩ := h all i hi
  obtain ⟨k, hk, hat'⟩ := h' all j hat
  exact ⟨k, hj.trans hk, hat'⟩

theorem Reaches.length_le (h : s.Reaches t) : t.rest.length ≤ s.rest.length := (reaches_iff.mp h).1.length_le

theorem Passes.trans (h : s.Passes t) (h' : t.Reaches u) : s.Passes u :=
  passes_iff.mpr ⟨h.reaches.trans h', h'.length_le.trans_lt h.fewer⟩

theorem passes_facing {x : Token} {ts : List Token} (h : s.rest = x :: ts) : s.Passes (s.facing ts) := by
  refine passes_iff.mpr ⟨reaches_iff.mpr ⟨?_, rfl⟩, ?_⟩
  · rw [h]
    exact List.suffix_cons x ts
  · rw [h]
    exact Nat.lt_succ_self _

end ParserState

/-! ## No way back -/

namespace Parser

theorem frame_reaches : Frame ParserState.Reaches where
  refl := .refl
  trans := .trans
  consume s := ParserState.reaches_iff.mpr ⟨frame_suffix.consume s, rfl⟩
  report _ _ := .stays rfl rfl
  record _ _ := .stays rfl rfl
  context _ _ _ _ := .stays rfl rfl
  tags _ _ := .stays rfl rfl
  input _ _ _ _ _ _ _ := .stays rfl rfl

inductive Routine (env : ParserEnv) : {α : Type} → Parser α → Prop
  | peek (n : Nat) : Routine env (peek n)
  | advance : Routine env advance
  | location : Routine env location
  | atEnd : Routine env atEnd
  | optional (k : TokenKind) : Routine env (optional k)
  | expect (k : TokenKind) (wanted : String) : Routine env (expectAs k wanted)
  | expectEnd : Routine env expectEnd
  | optionalOperand : Routine env optionalOperand
  | operand : Routine env operand
  | optionalInteger : Routine env optionalInteger
  | integer (wanted : String) : Routine env (integer wanted)
  | optionalFloat : Routine env optionalFloat
  | optionalKeyword (keyword : Option String) : Routine env (optionalKeyword keyword)
  | symbol : Routine env symbol
  | type : Routine env (typeExpr env.registry)
  | registerArguments (keyword : String) : Routine env (registerArguments keyword)
  | controlledArguments (keyword : String) : Routine env (controlledArguments keyword (typeExpr env.registry))
  | types : Routine env (typeList env.registry)
  | colonTypes : Routine env (colonTypes env.registry)
  | arrowTypes : Routine env (arrowTypes env.registry)
  | literal : Routine env literal
  | tags (reserved : List String) : Routine env (optionalTags reserved)
  | accessors : Routine env accessorList
  | angle (kind : Kind) : Routine env (angle env kind)
  | operands (kind : Kind) : Routine env (operandList kind)
  | references (refs : List Reference) (types : List Ty) : Routine env (bindAll env.registry refs types)
  | group (kind : Kind) : Routine env (operandGroup env kind)
  | call (kind : Kind) : Routine env (callForm env kind)
  | resultNames : Routine env resultNames
  | mnemonic (expected : Option Kind) : Routine env (mnemonic env expected)
  | instruction (expected : Option Kind) : Routine env (instruction env expected)
  | module : Routine env (module env)

section
variable {env : ParserEnv} {expected : Option Kind} {registry : Registry} {α β : Type} {p : Parser α}
    {f g : α → Parser β} {s t u : ParserState} {a : α} {b : β} {k : TokenKind} {o : Option Token} {n m : Nat}

theorem Routine.forward (h : Routine env p) : Keeps ParserState.Reaches p := by
  have hR := frame_reaches
  cases h with
  | peek n => exact hR.peek n
  | advance => exact hR.advance
  | location => exact hR.location
  | atEnd => exact hR.bind (hR.peek 0) fun _ => hR.pure _
  | optional k => exact hR.optional k
  | expect k wanted => exact hR.expectAs k wanted
  | expectEnd => exact hR.expectEnd
  | optionalOperand => exact hR.optionalOperand
  | operand => exact hR.operand
  | optionalInteger => exact hR.optionalInteger
  | integer wanted => exact hR.integer wanted
  | optionalFloat => exact hR.optionalFloat
  | optionalKeyword keyword => exact hR.optionalKeyword keyword
  | symbol => exact hR.symbol
  | type => exact hR.typeExpr _
  | registerArguments keyword => exact hR.registerArguments keyword
  | controlledArguments keyword =>
    exact hR.controlledArguments keyword (hR.typeExpr _) (stores_bind fun _ => stores_typeWithin _ _)
  | types => exact hR.typeList _
  | colonTypes => exact hR.colonTypes _
  | arrowTypes => exact hR.arrowTypes _
  | literal => exact hR.literal
  | tags reserved => exact hR.optionalTags reserved
  | accessors => exact hR.accessorList
  | angle kind => exact hR.angle env kind
  | operands kind => exact hR.operandList kind
  | references refs types => exact hR.bindAll _ refs types
  | group kind => exact hR.operandGroup env kind
  | call kind => exact hR.callForm env kind
  | resultNames => exact hR.resultNames
  | mnemonic expected => exact hR.mnemonic env expected
  | instruction expected => exact hR.instruction (fun _ _ => .stays rfl rfl) env expected
  | module => exact hR.bind hR.get fun s => hR.instructions (fun _ _ => .stays rfl rfl) env s.rest.length

/-! ## Optional constructs -/

/-- Routines for what may be missing: what they answer if it is, and the tokens that it starts with. -/
inductive Optional (env : ParserEnv) : {α : Type} → Parser α → α → (Token → Prop) → Prop
  | token (k : TokenKind) : Optional env (optional k) none (·.kind = k)
  | operand : Optional env optionalOperand none (·.kind = .valueName)
  | integer : Optional env optionalInteger none (·.kind = .int)
  | float : Optional env optionalFloat none fun t => t.kind = .float ∨ t.kind = .int
  | keyword (w : Option String) : Optional env (optionalKeyword w) none fun t => t.kind = .word ∧ ∀ x ∈ w, x = t.text
  | colonTypes : Optional env (colonTypes env.registry) [] (·.kind = .colon)
  | arrowTypes : Optional env (arrowTypes env.registry) [] (·.kind = .arrow)
  | tags (reserved : List String) : Optional env (optionalTags reserved) () (·.kind = .openBrace)
  | accessors : Optional env accessorList (.empty, []) (·.kind = .openBracket)

theorem keyword_iff {w : Option String} {x : Token} :
    (x.kind != .word || (w.map (· != x.text)).getD false) = true ↔ ¬ (x.kind = .word ∧ ∀ y ∈ w, y = x.text) := by
  cases w with
  | none => simp
  | some y => simp [imp_iff_not_or]

theorem optional_skips (h : (s.ahead 0).kind ≠ k) : Yields (optional k) s none s := by
  unfold Yields optional
  rw [peek_bind_apply, if_neg h]
  rfl

theorem Optional.skips {absent : α} {starts : Token → Prop} (h : Optional env p absent starts)
    (hs : ¬ starts (s.ahead 0)) :
    p s = (.ok absent, s) := by
  cases h with
  | token k => exact optional_skips hs
  | operand => exact (optional_skips hs).bind_eq
  | integer => exact (optional_skips hs).bind_eq
  | float =>
    unfold optionalFloat
    rw [peek_bind_apply, if_neg (by simpa using hs)]
    rfl
  | keyword w =>
    unfold optionalKeyword
    rw [peek_bind_apply, if_pos (keyword_iff.mpr hs)]
    rfl
  | colonTypes => exact (optional_skips hs).bind_eq
  | arrowTypes => exact (optional_skips hs).bind_eq
  | tags reserved => exact (optional_skips hs).bind_eq
  | accessors => exact (optional_skips hs).bind_eq

/-! ## Tokens that are taken -/

/-- The parser takes a token at least if it succeeds from the state. -/
def Takes (p : Parser α) (s : ParserState) : Prop := ∀ a t, Yields p s a t → s.Passes t

theorem Takes.bind (hp : Takes p s) (hf : ∀ a, Keeps ParserState.Reaches (f a)) : Takes (p >>= f) s := by
  intro b t h
  obtain ⟨a, u, first, second⟩ := yields_bind.mp h
  exact (hp a u first).trans ((hf a).yields second)

theorem takes_advance (hrest : s.rest ≠ []) : Takes advance s := by
  intro x t h
  obtain ⟨-, rfl⟩ := yields_advance.mp h
  obtain ⟨y, ys, hcons⟩ := List.exists_cons_of_ne_nil hrest
  rw [hcons]
  exact ParserState.passes_facing hcons

theorem takes_optional (hk : (s.ahead 0).kind = k) (hrest : s.rest ≠ []) : Takes (optional k) s := by
  unfold Takes Yields optional
  rw [peek_bind_apply, if_pos hk]
  exact (takes_advance hrest).bind fun x => frame_reaches.pure (some x)

theorem Optional.takes {absent : α} {starts : Token → Prop} (h : Optional env p absent starts)
    (hs : starts (s.ahead 0)) (hrest : s.rest ≠ []) : Takes p s := by
  have hR := frame_reaches
  cases h with
  | token k => exact takes_optional hs hrest
  | operand => exact (takes_optional hs hrest).bind fun _ => hR.pure _
  | integer =>
    refine (takes_optional hs hrest).bind fun o => ?_
    cases o with
    | none => exact hR.pure _
    | some x => exact hR.bind (hR.integerOf x) fun _ => hR.pure _
  | float =>
    unfold Takes Yields optionalFloat
    rw [peek_bind_apply, if_pos (by simpa using hs)]
    exact (takes_advance hrest).bind fun _ => hR.bind (hR.finiteFloat _) fun _ => hR.pure _
  | keyword w =>
    unfold Takes Yields optionalKeyword
    rw [peek_bind_apply, if_neg (mt keyword_iff.mp (not_not_intro hs))]
    exact (takes_advance hrest).bind fun _ => hR.pure _
  | colonTypes => exact (takes_optional hs hrest).bind fun _ => Frame.ite (hR.pure _) (hR.typeList _)
  | arrowTypes => exact (takes_optional hs hrest).bind fun _ => Frame.ite (hR.pure _) (hR.typeList _)
  | tags reserved =>
    exact (takes_optional hs hrest).bind fun _ => Frame.ite (hR.pure _) (hR.bind (hR.optional _) fun _ =>
      Frame.ite (hR.pure _) (hR.bind hR.get fun u => hR.tagEntries reserved u.rest.length))
  | accessors =>
    exact (takes_optional hs hrest).bind fun _ => Frame.ite (hR.pure _) (hR.bind (hR.optional _) fun _ =>
      Frame.ite (hR.pure _) (hR.bind (hR.components _) fun _ => hR.bind (hR.expect _) fun _ => hR.pure _))

theorem takes_expectAs (hk : k ≠ .endOfText) (wanted : String) : Takes (expectAs k wanted) s := by
  intro x t h
  obtain ⟨ts, hrest, -, rfl⟩ := (yields_expectAs hk).mp h
  exact ParserState.passes_facing hrest

theorem takes_typeExpr (registry : Registry) : Takes (typeExpr registry) s := by
  intro a t h
  refine ParserState.passes_iff.mpr ⟨(frame_reaches.typeExpr registry).yields h, ?_⟩
  obtain ⟨w, ty, rest, written, -, -, rfl⟩ := yields_typeExpr.mp h
  exact written.length_lt w.words_ne_nil

theorem takes_literal : Takes literal s := by
  intro a t h
  refine ParserState.passes_iff.mpr ⟨frame_reaches.literal.yields h, ?_⟩
  obtain ⟨w, rest, written, -, rfl⟩ := yields_literal.mp h
  exact written.length_lt w.words_ne_nil

theorem takes_instruction : Takes (instruction env expected) s := fun _ _ h =>
  ParserState.passes_iff.mpr ⟨(Routine.instruction expected).forward.yields h, (instruction_takes h).2⟩

/-! ## Nesting -/

theorem bind_both_congr {p' : Parser α} {q q' : Parser β} (hp : p s = p' s)
    (hq : ∀ a t, Yields p' s a t → q t = q' t) {γ : Type} {f : α → β → Parser γ} :
    (p >>= fun a => q >>= f a) s = (p' >>= fun a => q' >>= f a) s := by
  rw [bind_apply, hp, ← bind_apply]
  refine bind_congr_at fun a t h => ?_
  rw [bind_apply, bind_apply, hq a t h]

theorem controlledArguments_congr {inner inner' : Parser Ty} (keyword : String)
    (h : ∀ t, s.Reaches t → inner t = inner' t) :
    controlledArguments keyword inner s = controlledArguments keyword inner' s := by
  have hR := frame_reaches
  refine bind_congr_at fun _ t first => bind_congr_at fun _ u second => bind_congr_at fun _ v third => ?_
  have reached := ((hR.argumentToken keyword _).yields first).trans
    (((hR.controlPrefix keyword).yields second).trans ((hR.wordAhead keyword).yields third))
  rw [bind_apply, bind_apply, h v reached]

theorem typeAt_congr {inner inner' : Parser Ty} (x : Token) (h : ∀ t, s.Reaches t → inner t = inner' t) :
    typeAt registry x inner s = typeAt registry x inner' s := by
  unfold typeAt
  cases builtinType? x.text with
  | some _ => rfl
  | none =>
    cases registry.keyword? x.text with
    | none => rfl
    | some introduced =>
      cases introduced with
      | cgate => exact controlledArguments_congr x.text h
      | _ => rfl

theorem typeWithin_end (hrest : s.rest = []) :
    typeWithin registry n s = (fail (.unexpectedToken "type" (s.ahead 0)) (s.ahead 0).location : Parser Ty) s := by
  cases n with
  | zero => exact peek_bind_apply
  | succ n =>
    have noWord : ((s.ahead 0).kind != .word) = true := by rw [kind_ahead_zero, hrest, nextKind_nil]; decide
    rw [typeWithin, peek_bind_apply, if_pos noWord]
    rfl

/-- Fuel for all tokens is enough for a type, and more of it makes no difference. -/
theorem typeWithin_fuel (hn : s.rest.length ≤ n) (hm : s.rest.length ≤ m) :
    typeWithin registry n s = typeWithin registry m s := by
  induction n generalizing m s with
  | zero =>
    have hrest : s.rest = [] := List.eq_nil_of_length_eq_zero (Nat.le_zero.mp hn)
    rw [typeWithin_end hrest, typeWithin_end hrest]
  | succ n ih =>
    cases m with
    | zero =>
      have hrest : s.rest = [] := List.eq_nil_of_length_eq_zero (Nat.le_zero.mp hm)
      rw [typeWithin_end hrest, typeWithin_end hrest]
    | succ m =>
      rw [typeWithin, typeWithin, peek_bind_apply, peek_bind_apply]
      split
      · rfl
      · refine bind_congr_at fun _ t advanced => typeAt_congr _ fun u reached => ?_
        obtain ⟨-, rfl⟩ := yields_advance.mp advanced
        have left := reached.length_le
        rw [ParserState.rest_facing, List.length_drop] at left
        exact ih (by omega) (by omega)

theorem literals_end (hrest : s.rest = []) :
    literalWithin n s = (fail (.noAttribute (s.ahead 0)) (s.ahead 0).location : Parser Attr) s ∧
      literalsWithin n s = (.ok [], s) := by
  have atEnd : (s.ahead 0).kind = .endOfText := by rw [kind_ahead_zero, hrest, nextKind_nil]
  cases n with
  | zero => exact ⟨peek_bind_apply, rfl⟩
  | succ n =>
    constructor
    · rw [literalWithin, peek_bind_apply, atEnd]
    · rw [literalsWithin, (optional_skips (by rw [atEnd]; decide)).bind_eq]
      rfl

theorem literals_fuel (hn : s.rest.length ≤ n) (hm : s.rest.length ≤ m) :
    literalWithin n s = literalWithin m s ∧ literalsWithin n s = literalsWithin m s := by
  induction n generalizing m s with
  | zero =>
    have hrest : s.rest = [] := List.eq_nil_of_length_eq_zero (Nat.le_zero.mp hn)
    rw [(literals_end hrest).1, (literals_end hrest).2, (literals_end hrest).1, (literals_end hrest).2]
    exact ⟨rfl, rfl⟩
  | succ n ih =>
    cases m with
    | zero =>
      have hrest : s.rest = [] := List.eq_nil_of_length_eq_zero (Nat.le_zero.mp hm)
      rw [(literals_end hrest).1, (literals_end hrest).2, (literals_end hrest).1, (literals_end hrest).2]
      exact ⟨rfl, rfl⟩
    | succ m =>
      -- what stands behind an item has no more tokens left than the item
      have others {t : ParserState} (left : t.rest.length ≤ n ∧ t.rest.length ≤ m) :
          ∀ first u, Yields (literalWithin m) t first u → literalsWithin n u = literalsWithin m u := by
        intro first u one
        have := ((frame_reaches.literals m).1.yields one).length_le
        exact (ih (by omega) (by omega)).2
      constructor
      · rw [literalWithin, literalWithin, peek_bind_apply, peek_bind_apply]
        cases (s.ahead 0).kind with
        | openBracket =>
          refine bind_congr_at fun _ t advanced => bind_congr_at fun o u closed => ?_
          obtain ⟨-, rfl⟩ := yields_advance.mp advanced
          have left := ((frame_reaches.optional _).yields closed).length_le
          rw [ParserState.rest_facing, List.length_drop] at left
          split
          · rfl
          · exact bind_both_congr (ih (by omega) (by omega)).1 (others (by omega))
        | _ => rfl
      · rw [literalsWithin, literalsWithin]
        refine bind_congr_at fun o t comma => ?_
        rcases (yields_optional (by decide)).mp comma with ⟨x, ts, hrest, -, rfl, rfl⟩ | ⟨-, rfl, rfl⟩
        · rw [hrest, List.length_cons] at hn hm
          have left : (s.facing ts).rest.length ≤ n ∧ (s.facing ts).rest.length ≤ m := by
            rw [ParserState.rest_facing]
            omega
          exact bind_both_congr (ih left.1 left.2).1 (others left)
        · rfl

end

end Parser

end GateAsm
