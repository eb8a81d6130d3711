import GateAsm.Proofs.Discipline
import GateAsm.Proofs.Grammar.TypeForms
import GateAsm.Proofs.TypeHistory

/-!
# Texts that are no types

The parser of types reads what `Denotes` allows and stops where the tokens deviate, with the cause of `Deviates`
(`blames_typeWithin`). With that each text is either read as the type that it denotes or refused
(`Reading.type_answers`).
-/

namespace GateAsm

open GateAsm.Parser (nextKind nextKind_cons)

/-! ## The parser stops at a deviation -/

namespace Parser
variable {α β : Type} {all : TokenStream} {r : Registry} {s t : ParserState} {c : ParseCause}
    {ts us vs rest : List Token} {keyword : String}

/-- The parser stops with an error of this cause, up to how types are written, at the first of the tokens. -/
def Blames (all : TokenStream) (p : Parser α) (s : ParserState) (c : ParseCause) (ts : List Token) : Prop :=
  ∃ c', (p s).1 = .error (.error ⟨c', (all.first ts).location⟩) ∧ c'.asWritten = c

theorem Blames.bind {p : Parser α} {f : α → Parser β} (h : Blames all p s c ts) : Blames all (p >>= f) s c ts := by
  obtain ⟨c', hp, hc⟩ := h
  refine ⟨c', ?_, hc⟩
  rw [bind_apply, hp]
  rfl

theorem Yields.blames {p : Parser α} {f : α → Parser β} {a : α} (h : Yields p s a t) (hf : Blames all (f a) t c ts) :
    Blames all (p >>= f) s c ts := by
  obtain ⟨c', hp, hc⟩ := hf
  refine ⟨c', ?_, hc⟩
  rw [bind_apply, show p s = (.ok a, t) from h]
  exact hp

theorem blames_fail {l : Location} (hl : l = (all.first ts).location) :
    Blames all (fail (α := α) c l) s c.asWritten ts := ⟨c, by rw [hl]; rfl, rfl⟩

def EndsWith (all : TokenStream) (s : ParserState) : Prop := s.endLocation = all.endLocation

theorem EndsWith.ahead (h : EndsWith all s) : s.ahead 0 = all.first s.rest := by
  rw [ahead_zero, TokenStream.first, ParserState.endToken, TokenStream.endToken, h]

theorem EndsWith.facing (h : EndsWith all s) (ts : List Token) : EndsWith all (s.facing ts) := h

theorem EndsWith.keeping (h : EndsWith all s) (u : Ty) : EndsWith all (s.keeping u) := by
  have interning : ∀ {s : ParserState} (u : Ty), EndsWith all s → EndsWith all (s.interning u) := by
    intro s u h
    unfold ParserState.interning
    split <;> exact h
  unfold ParserState.keeping
  split
  · exact interning _ (interning _ h)
  · exact interning _ h

theorem blames_malformed (h : EndsWith all s) : Blames all (malformed (α := α) keyword) s
    (.malformedType keyword .shape) s.rest :=
  Yields.blames (yields_location.mpr ⟨rfl, rfl⟩) (blames_fail (congrArg Token.location h.ahead))

theorem yields_argumentToken_of_splits {k : TokenKind} (hk : k.isVaried = false) (he : k ≠ .endOfText)
    (h : Splits [.mark k] s.rest ts) : Yields (argumentToken keyword k) s () (s.facing ts) := by
  have : Yields (argumentToken keyword k >>= fun _ => pure ()) s () (s.facing ts) :=
    (yields_argumentToken hk he).mpr ⟨ts, h, yields_pure.mpr ⟨rfl, rfl⟩⟩
  rwa [show (argumentToken keyword k >>= fun _ => pure ()) = argumentToken keyword k from bind_pure _] at this

theorem blames_argumentToken {k : TokenKind} (he : k ≠ .endOfText) (hs : EndsWith all s) (h : nextKind s.rest ≠ k) :
    Blames all (argumentToken keyword k) s (.malformedType keyword .shape) s.rest :=
  Yields.blames ((yields_optional he).mpr (.inr ⟨h, rfl, rfl⟩)) (blames_malformed hs)

theorem typeAt_register {x : Token} {inner : Parser Ty} (hr : r.keywords = Registry.standard.keywords)
    (hx : x.text = "register") : typeAt r x inner = registerArguments "register" := by
  obtain ⟨hb, hk⟩ := (introduces_iff hr (g := .register)).mpr hx
  simp only [typeAt, hb, hk]
  rw [hx]

theorem typeAt_cgate {x : Token} {inner : Parser Ty} (hr : r.keywords = Registry.standard.keywords)
    (hx : x.text = "cgate") : typeAt r x inner = controlledArguments "cgate" inner := by
  obtain ⟨hb, hk⟩ := (introduces_iff hr (g := .cgate)).mpr hx
  simp only [typeAt, hb, hk]
  rw [hx]

theorem blames_behind {w : String} {ws : List Word} {fuel : Nat} (hsplit : Splits (⟨.word, w⟩ :: ws) s.rest rest)
    (hf : s.rest.length ≤ fuel)
    (h : ∀ x vs f, x.text = w → all.first s.rest = x → Splits ws vs rest → vs.length ≤ f →
      Blames all (typeAt r x (typeWithin r f)) (s.facing vs) c ts) :
    Blames all (typeWithin r fuel) s c ts := by
  obtain ⟨x, vs, hx, hw, hvs⟩ := Splits.cons_iff.mp hsplit
  obtain ⟨hk, htext⟩ := (Token.word_eq_iff rfl).mp hw
  rw [hx, List.length_cons] at hf
  obtain ⟨f, rfl⟩ : ∃ f, fuel = f + 1 := ⟨fuel - 1, by omega⟩
  have next := h x vs f htext (by rw [hx]; rfl) hvs (Nat.le_of_succ_le_succ hf)
  refine Yields.blames (yields_peek.mpr ⟨(ahead_of_rest hx).symm, rfl⟩) ?_
  have isWord : (x.kind != .word) = false := by simp [hk]
  simp only [isWord, Bool.false_eq_true, if_false]
  refine Yields.blames (yields_advance.mpr ⟨rfl, rfl⟩) ?_
  rwa [hx]

section
variable (hr : r.keywords = Registry.standard.keywords) {ws : List Word} {fuel : Nat} (hf : s.rest.length ≤ fuel)
include hr hf

theorem blames_register (hsplit : Splits (⟨.word, "register"⟩ :: ws) s.rest rest)
    (h : ∀ vs, Splits ws vs rest → Blames all (registerArguments "register") (s.facing vs) c ts) :
    Blames all (typeWithin r fuel) s c ts :=
  blames_behind hsplit hf fun x vs _ hx _ hvs _ => by
    rw [typeAt_register hr hx]
    exact h vs hvs

theorem blames_cgate (hsplit : Splits (⟨.word, "cgate"⟩ :: ws) s.rest rest)
    (h : ∀ vs f, Splits ws vs rest → vs.length ≤ f →
      Blames all (controlledArguments "cgate" (typeWithin r f)) (s.facing vs) c ts) :
    Blames all (typeWithin r fuel) s c ts :=
  blames_behind hsplit hf fun x vs f hx _ hvs hlen => by
    rw [typeAt_cgate hr hx]
    exact h vs f hvs hlen

end

/-! ### Registers -/

theorem blames_registerOpen {size : Option String} (hs : EndsWith all s)
    (hr : Splits (.mark .less :: (size.map (Word.mk .int)).toList) s.rest rest)
    (hsize : size = none → nextKind rest ≠ .int) (hmore : nextKind rest ≠ .more) :
    Blames all (registerArguments keyword) s (.malformedType keyword .shape) rest := by
  obtain ⟨us, hless, hr⟩ := Splits.first_iff.mp hr
  refine Yields.blames (yields_argumentToken_of_splits rfl (by decide) hless) ?_
  cases size with
  | none =>
    obtain rfl := Splits.nil_iff.mp hr
    refine Yields.blames ((yields_optional (by decide)).mpr (.inr ⟨hsize rfl, rfl, rfl⟩)) ?_
    exact Blames.bind (blames_argumentToken (s := s.facing _) (by decide) (hs.facing _) hmore)
  | some d =>
    obtain ⟨x, vs, rfl, hx, hvs⟩ := Splits.cons_iff.mp hr
    obtain rfl := Splits.nil_iff.mp hvs
    refine Yields.blames ((yields_optional (by decide)).mpr
      (.inl ⟨x, vs, rfl, ((Token.word_eq_iff rfl).mp hx).1, rfl, rfl⟩)) ?_
    exact Blames.bind (blames_argumentToken (s := s.facing _) (by decide) (hs.facing _) hmore)

theorem blames_registerSize {d : String} {n : Int} (hless : Splits [.mark .less] s.rest us)
    (hclosed : Splits [⟨.int, d⟩, .mark .more] us rest) (hn : intLiteral? d = some n) (hlow : n ≤ 1) :
    Blames all (registerArguments keyword) s (.malformedType keyword (.registerSize n)) us := by
  obtain ⟨x, vs, rfl, hx, hmore⟩ := Splits.cons_iff.mp hclosed
  obtain ⟨hk, rfl⟩ := (Token.word_eq_iff rfl).mp hx
  refine Yields.blames (yields_argumentToken_of_splits rfl (by decide) hless) ?_
  refine Yields.blames ((yields_optional (by decide)).mpr (.inl ⟨x, vs, rfl, hk, rfl, rfl⟩)) ?_
  refine Yields.blames (yields_argumentToken_of_splits rfl (by decide) hmore) ?_
  refine Yields.blames (yields_integerOf.mpr ⟨hn, rfl⟩) ?_
  rw [if_pos hlow]
  exact blames_fail rfl

/-! ### Controlled gates -/

section
variable {count : Option String} {inner : Parser Ty}

theorem blames_noComma {d : String} (hs : EndsWith all s) (hr : Splits [.mark .less, ⟨.int, d⟩] s.rest rest)
    (hcomma : nextKind rest ≠ .comma) :
    Blames all (controlledArguments keyword inner) s (.malformedType keyword .shape) rest := by
  obtain ⟨us, hless, hd⟩ := Splits.first_iff.mp hr
  obtain ⟨y, ys, rfl, hy, hys⟩ := Splits.cons_iff.mp hd
  obtain rfl := Splits.nil_iff.mp hys
  refine Yields.blames (yields_argumentToken_of_splits rfl (by decide) hless) (Blames.bind ?_)
  refine Yields.blames ((yields_optional (by decide)).mpr
    (.inl ⟨y, ys, rfl, ((Token.word_eq_iff rfl).mp hy).1, rfl, rfl⟩)) (Blames.bind ?_)
  exact blames_argumentToken (s := s.facing ys) (by decide) (hs.facing _) hcomma

theorem blames_controlled (hr : Splits (.mark .less :: TypeSyntax.countWords count) s.rest vs)
    (hcount : count = none → nextKind vs ≠ .int) (h : ∀ o : Option Token, o.map Token.text = count →
      (∀ us d, Splits [.mark .less] s.rest us → d ∈ o → us.head? = some d) →
      Blames all (do
        let baseToken ← wordAhead keyword
        let base ← inner
        argumentToken keyword .more
        let count ← optionalCount keyword o
        controlledType base count baseToken.location) (s.facing vs) c ts) :
    Blames all (controlledArguments keyword inner) s c ts := by
  obtain ⟨us, hless, hr⟩ := Splits.first_iff.mp hr
  obtain ⟨o, rfl, ho, hhead⟩ : ∃ o : Option Token, o.map Token.text = count ∧
      (o = none → nextKind us ≠ .int) ∧ ∀ d ∈ o, us.head? = some d := by
    cases count with
    | none =>
      obtain rfl := Splits.nil_iff.mp hr
      exact ⟨none, rfl, fun _ => hcount rfl, nofun⟩
    | some d =>
      obtain ⟨x, xs, rfl, hx, -⟩ := Splits.cons_iff.mp hr
      exact ⟨some x, by rw [Option.map_some, ((Token.word_eq_iff rfl).mp hx).2], nofun, fun d hd => hd⟩
  refine Yields.blames (yields_argumentToken_of_splits rfl (by decide) hless) ?_
  refine Yields.blames (yields_controlPrefix.mpr ⟨vs, hr, rfl, ho, hhead⟩) ?_
  refine h o rfl fun us' d hus' hd => ?_
  obtain ⟨x, hx, -⟩ := (splits_mark_iff rfl).mp hless
  obtain ⟨y, hy, -⟩ := (splits_mark_iff rfl).mp hus'
  obtain rfl : us = us' := by rw [hx] at hy; exact (List.cons.inj hy).2
  exact hhead d hd

variable (hr : Splits (.mark .less :: TypeSyntax.countWords count) s.rest us)
include hr

theorem blames_noBase (hs : EndsWith all s) (hcount : count = none → nextKind us ≠ .int) (hword : nextKind us ≠ .word) :
    Blames all (controlledArguments keyword inner) s (.malformedType keyword .shape) us := by
  refine blames_controlled hr hcount fun o _ _ => Blames.bind ?_
  refine Yields.blames (yields_peek.mpr ⟨rfl, rfl⟩) ?_
  have other : (((s.facing us).ahead 0).kind != .word) = true := by
    rw [kind_ahead_zero]
    simpa using hword
  rw [other]
  exact blames_malformed (s := s.facing us) (hs.facing _)

variable (hword : nextKind us = .word)
include hword

theorem blames_base (h : ∀ o : Option Token, o.map Token.text = count →
      (∀ us d, Splits [.mark .less] s.rest us → d ∈ o → us.head? = some d) →
      Blames all (do
        let base ← inner
        argumentToken keyword .more
        let count ← optionalCount keyword o
        controlledType base count ((s.facing us).ahead 0).location) (s.facing us) c ts) :
    Blames all (controlledArguments keyword inner) s c ts :=
  blames_controlled hr (fun _ => by rw [hword]; nofun) fun o ho hhead =>
    Yields.blames (yields_wordAhead.mpr ⟨hword, rfl, rfl⟩) (h o ho hhead)

theorem blames_inBase (h : Blames all inner (s.facing us) c ts) :
    Blames all (controlledArguments keyword inner) s c ts :=
  blames_base hr hword fun _ _ _ => h.bind

variable {u : Ty} (hbase : Yields inner (s.facing us) u t)
include hbase

theorem blames_cgateOpen (ht : EndsWith all t) (hmore : nextKind t.rest ≠ .more) :
    Blames all (controlledArguments keyword inner) s (.malformedType keyword .shape) t.rest :=
  blames_base hr hword fun _ _ _ => hbase.blames (blames_argumentToken (by decide) ht hmore).bind

variable (hmore : nextKind t.rest = .more)
include hmore

theorem blames_closed (h : ∀ o : Option Token, o.map Token.text = count →
      (∀ us d, Splits [.mark .less] s.rest us → d ∈ o → us.head? = some d) → ∀ t : ParserState,
      Blames all (do
        let count ← optionalCount keyword o
        controlledType u count ((s.facing us).ahead 0).location) t c ts) :
    Blames all (controlledArguments keyword inner) s c ts := by
  obtain ⟨m, ms, hm, hk⟩ := exists_cons_of_nextKind hmore (by decide)
  refine blames_base hr hword fun o ho hhead => hbase.blames ?_
  have closed : Splits [.mark .more] t.rest ms := (splits_mark_iff rfl).mpr ⟨m, hm, hk⟩
  exact Yields.blames (yields_argumentToken_of_splits rfl (by decide) closed) (h o ho hhead _)

theorem blames_invalidBase (hs : EndsWith all s) (hcount : ∀ d ∈ count, ∃ n, intLiteral? d = some n ∧ 0 < n)
    (hnone : u.base? = none) :
    Blames all (controlledArguments keyword inner) s (ParseCause.invalidBase u).asWritten us := by
  refine blames_closed hr hword hbase hmore fun o ho _ t => ?_
  obtain ⟨k, hk⟩ : ∃ k, TypeSyntax.numberAbove? 0 count = some k := by
    cases count with
    | none => exact ⟨none, rfl⟩
    | some d =>
      obtain ⟨n, hn, hpos⟩ := hcount d rfl
      exact ⟨some n.toNat, TypeSyntax.numberAbove?_some_iff.mpr ⟨n, hn, hpos, rfl⟩⟩
  refine Yields.blames (yields_optionalCount.mpr ⟨ho ▸ hk, rfl⟩) ?_
  rw [controlledType, hnone]
  exact blames_fail (congrArg Token.location (hs.facing us).ahead)

end

theorem blames_controlCount {inner : Parser Ty} {d : String} {n : Int} {u : Ty} (hless : Splits [.mark .less] s.rest us)
    (hcounted : Splits [⟨.int, d⟩, .mark .comma] us vs) (hword : nextKind vs = .word)
    (hbase : Yields inner (s.facing vs) u t)
    (hmore : nextKind t.rest = .more) (hn : intLiteral? d = some n) (hlow : n ≤ 0) :
    Blames all (controlledArguments keyword inner) s (.malformedType keyword (.controlCount n)) us := by
  have behind : Splits (.mark .less :: TypeSyntax.countWords (some d)) s.rest vs := hless.append hcounted
  refine blames_closed behind hword hbase hmore fun o ho hhead t => ?_
  obtain ⟨y, rfl, rfl⟩ := Option.map_eq_some_iff.mp ho
  have fails : Blames all (controlCount keyword y) t (.malformedType keyword (.controlCount n)) us := by
    refine Yields.blames (yields_integerOf.mpr ⟨hn, rfl⟩) ?_
    rw [if_pos hlow]
    exact blames_fail (by rw [TokenStream.first, hhead us y hless rfl]; rfl)
  rw [optionalCount, map_eq_pure_bind]
  exact Blames.bind (Blames.bind fails)

/-! ### Types -/

theorem blames_unknown {w : String} {fuel : Nat} (hr : r.keywords = Registry.standard.keywords)
    (hf : s.rest.length ≤ fuel) (hsplit : Splits [⟨.word, w⟩] s.rest rest) (hplain : ∀ u, ¬ Denotes [⟨.word, w⟩] u)
    (hw : w ∉ ["register", "cgate"]) : Blames all (typeWithin r fuel) s (.unknownType w) s.rest := by
  refine blames_behind hsplit hf fun x vs f hx hfirst _ _ => ?_
  have foreign : builtinType? w = none := Option.eq_none_iff_forall_ne_some.mpr fun u hu =>
    hplain u (denotes_of_builtinType? hu)
  have unknown : r.keyword? w = none := Option.eq_none_iff_forall_ne_some.mpr fun g hg => by
    obtain rfl := (keyword?_iff hr).mp hg
    cases g
    · exact hplain _ .qubit
    · exact hw (by decide)
    · exact hplain _ .gate1
    · exact hplain _ .gate2
    · exact hw (by decide)
    · exact hplain _ .circuit
  rw [typeAt, hx, foreign]
  simp only [unknown]
  exact blames_fail (congrArg Token.location hfirst.symm)

theorem blames_noWord {fuel : Nat} (hs : EndsWith all s) (hword : nextKind s.rest ≠ .word) :
    Blames all (typeWithin r fuel) s (.unexpectedToken "type" (all.first s.rest)) s.rest := by
  cases fuel with
  | zero =>
    refine Yields.blames (yields_peek.mpr ⟨rfl, rfl⟩) ?_
    rw [hs.ahead]
    exact blames_fail rfl
  | succ fuel =>
    refine Yields.blames (yields_peek.mpr ⟨rfl, rfl⟩) ?_
    have other : ((all.first s.rest).kind != .word) = true := by rw [← hs.ahead, kind_ahead_zero]; simpa using hword
    simp only [hs.ahead, other, if_true]
    exact (blames_fail rfl).bind

theorem yields_base {u : Ty} {fuel : Nat} (hr : r.keywords = Registry.standard.keywords)
    (front : Denotes.Front s.rest u rest)
    (hf : s.rest.length ≤ fuel) : Yields (typeWithin r fuel) s (s.context.keep u).1 ((s.keeping u).facing rest) := by
  obtain ⟨ws, split, hd⟩ := front
  obtain ⟨w, rfl, hw⟩ := (denotes_iff hr).mp hd
  exact (yields_typeWithin fuel hf).mpr ⟨w, u, rest, split, hw, rfl, rfl⟩

/-- **The parser stops where the tokens deviate** from all types, with that cause. -/
theorem blames_typeWithin (hr : r.keywords = Registry.standard.keywords) (h : Deviates all ts c rest) {fuel : Nat}
    (hs : EndsWith all s) (hts : s.rest = ts) (hf : ts.length ≤ fuel) : Blames all (typeWithin r fuel) s c rest := by
  induction h generalizing s fuel with
  | noWord hword => subst hts; exact blames_noWord hs hword
  | unknown hsplit hplain hw => subst hts; exact blames_unknown hr hf hsplit hplain hw
  | @notOpened _ _ left hsplit hw hless =>
    subst hts
    have opening : ∀ k vs, Splits [] vs left →
        Blames all (argumentToken k .less) (s.facing vs) (.malformedType k .shape) left := by
      intro k vs hvs
      obtain rfl := Splits.nil_iff.mp hvs
      exact blames_argumentToken (s := s.facing vs) (by decide) (hs.facing _) hless
    simp only [List.mem_cons, List.not_mem_nil, or_false] at hw
    rcases hw with rfl | rfl
    · exact blames_register hr hf hsplit fun vs hvs => (opening _ vs hvs).bind
    · exact blames_cgate hr hf hsplit fun vs _ hvs _ => (opening _ vs hvs).bind
  | registerOpen hsplit hsize hmore =>
    subst hts
    exact blames_register hr hf hsplit fun vs hvs =>
      blames_registerOpen (s := s.facing vs) (hs.facing _) hvs hsize hmore
  | registerSize hsplit hclosed hn hlow =>
    subst hts
    exact blames_register hr hf hsplit fun vs hvs => blames_registerSize (s := s.facing vs) hvs hclosed hn hlow
  | noComma hsplit hcomma =>
    subst hts
    exact blames_cgate hr hf hsplit fun vs _ hvs _ => blames_noComma (s := s.facing vs) (hs.facing _) hvs hcomma
  | noBase hsplit hcount hword =>
    subst hts
    exact blames_cgate hr hf hsplit fun vs _ hvs _ => blames_noBase (s := s.facing vs) hvs (hs.facing _) hcount hword
  | @inBase _ _ _ us _ hsplit hword _ ih =>
    subst hts
    refine blames_cgate hr hf hsplit fun vs _ hvs hlen => blames_inBase (s := s.facing vs) hvs hword ?_
    exact ih (s := s.facing us) (hs.facing _) rfl (Nat.le_trans hvs.sublist.length_le hlen)
  | @cgateOpen _ u _ us _ hsplit hfront hmore =>
    subst hts
    refine blames_cgate hr hf hsplit fun vs _ hvs hlen => ?_
    have base := yields_base (s := s.facing us) hr hfront (Nat.le_trans hvs.sublist.length_le hlen)
    exact blames_cgateOpen (s := s.facing vs) hvs hfront.nextKind_eq base (((hs.facing us).keeping u).facing _) hmore
  | @controlCount _ _ _ _ _ ws _ hsplit hcounted hfront hmore hn hlow =>
    subst hts
    refine blames_cgate hr hf hsplit fun vs _ hvs hlen => ?_
    have left := Nat.le_trans (hvs.append hcounted).sublist.length_le hlen
    have base := yields_base (s := s.facing ws) hr hfront left
    exact blames_controlCount (s := s.facing vs) hvs hcounted hfront.nextKind_eq base hmore hn hlow
  | @invalidBase _ u _ us _ hsplit hfront hmore hcount hnone =>
    subst hts
    refine blames_cgate hr hf hsplit fun vs _ hvs hlen => ?_
    have base := yields_base (s := s.facing us) hr hfront (Nat.le_trans hvs.sublist.length_le hlen)
    -- the base that the context keeps has the same parameters, and is the same when it is written
    have same : (s.context.keep u).1.same u = true := TypeContext.keep_same _ u
    have written : (ParseCause.invalidBase (s.context.keep u).1).asWritten = .invalidBase u := by
      obtain ⟨_, -, hd⟩ := hfront
      rw [ParseCause.asWritten, Ty.same_iff.mp same, hd.plain]
    rw [← written]
    exact blames_invalidBase (s := s.facing vs) hvs hfront.nextKind_eq base hmore (hs.facing _) hcount
      ((Ty.base?_eq_of_same same).trans hnone)

theorem blames_expectEnd (hs : EndsWith all s) (h : nextKind s.rest ≠ .endOfText) :
    Blames all expectEnd s (.unexpectedToken "end of input" (all.first s.rest)) s.rest := by
  refine Blames.bind (Yields.blames (yields_peek.mpr ⟨rfl, rfl⟩) ?_)
  rw [if_neg (by rw [kind_ahead_zero]; exact h), hs.ahead]
  exact blames_fail rfl

end Parser

/-! ## Texts -/

def ParseFailure.Blames (f : ParseFailure) (all : TokenStream) (c : ParseCause) (ts : List Token) : Prop :=
  ∃ e : ParseError, f = .error e ∧ e.cause.asWritten = c ∧ e.location = (all.first ts).location

section
variable {r : Registry} {text : String} {c : TypeContext} {all : TokenStream}

theorem legible_of_not_longInteger (h : ¬ all.LongInteger) : Legible all.tokens := by
  intro t ht hk
  have short : ¬ maxIntegerDigits < (Floating.splitSign t.text.toList).2.length := fun long => h ⟨t, ht, hk, long⟩
  exact ⟨_, if_neg short⟩

theorem Denotes.Front.all_iff {u : Ty} : Denotes.Front all.tokens u [] ↔ Denotes (all.tokens.map Token.word) u := by
  constructor
  · rintro ⟨ws, ⟨used, hused, rfl⟩, hd⟩
    rw [List.append_nil] at hused
    rwa [hused]
  · intro h
    exact ⟨_, ⟨all.tokens, (List.append_nil _).symm, rfl⟩, h⟩

/-- Tokens of a text that are no type are refused, with the cause and at the place of the first deviation. -/
theorem Reading.type_refuses (hr : r.keywords = Registry.standard.keywords)
    (htokens : TokenStream.ofText text = .ok all)
    {cause : ParseCause} {rest : List Token} (h : NoType all all.tokens cause rest) :
    ∃ f, (Reading.type r text c).answer = .error f ∧ f.Blames all cause rest := by
  have blames : Parser.Blames all (do let t ← Parser.typeExpr r; Parser.expectEnd; return t)
      (.start all c .empty) cause rest := by
    have ends : Parser.EndsWith all (.start all c .empty) := rfl
    cases h with
    | fault h =>
      refine Parser.Blames.bind (Parser.Yields.blames (Parser.yields_get.mpr ⟨rfl, rfl⟩) ?_)
      exact Parser.blames_typeWithin hr h ends rfl (Nat.le_refl _)
    | @more u _ _ front hrest =>
      obtain ⟨ws, split, hd⟩ := front
      obtain ⟨w, rfl, hw⟩ := (denotes_iff hr).mp hd
      refine Parser.Yields.blames (Parser.yields_typeExpr.mpr ⟨w, u, rest, split, hw, rfl, rfl⟩) (Parser.Blames.bind ?_)
      refine Parser.blames_expectEnd (s := ((ParserState.start all c .empty).keeping u).facing rest)
        ((ends.keeping u).facing rest) fun hend => ?_
      obtain ⟨x, xs, rfl⟩ := List.exists_cons_of_ne_nil hrest
      -- the lexer has no token for the end
      have spelled := (lexes_of_ofText htokens).2 x.word (List.mem_map_of_mem (split.sublist.subset List.mem_cons_self))
      rw [Word.Spelled, Token.kind_word, show x.kind = .endOfText from hend] at spelled
      exact spelled
  obtain ⟨c', hp, hc⟩ := blames
  refine ⟨_, ?_, ⟨c', _⟩, rfl, hc, rfl⟩
  simp only [Reading.type, Reading.run, htokens]
  exact hp

/-- **Which texts are types.** Text is read as a type exactly if its tokens denote one, and the answer is the type
that the context keeps for that one. All other tokens are refused where they deviate from the types, with the cause
of `NoType`; a text without tokens is refused at its stray character. -/
theorem Reading.type_answers (hr : r.keywords = Registry.standard.keywords)
    (short : ∀ all, TokenStream.ofText text = .ok all → ¬ all.LongInteger) :
    match TokenStream.ofText text with
    | .error e => (Reading.type r text c).answer = .error (.error ⟨.unexpectedCharacter e.char, e.location⟩)
    | .ok all =>
      (∀ t, (Reading.type r text c).answer = .ok t ↔
        ∃ u, Denotes (all.tokens.map Token.word) u ∧ t = (c.keep u).1 ∧ t.same u = true) ∧
      (∀ f, (Reading.type r text c).answer = .error f → ∃ cause rest, NoType all all.tokens cause rest ∧
        f.Blames all cause rest) ∧
      ∀ cause rest, NoType all all.tokens cause rest →
        ∃ f, (Reading.type r text c).answer = .error f ∧ f.Blames all cause rest := by
  cases htokens : TokenStream.ofText text with
  | error e => simp only [Reading.type, Reading.run, htokens]
  | ok all =>
  have reads : ∀ {u : Ty}, Denotes (all.tokens.map Token.word) u →
      (Reading.type r text c).answer = .ok (c.keep u).1 := by
    intro u h
    obtain ⟨w, hw, hty⟩ := (denotes_iff hr).mp h
    have split : Splits w.words (ParserState.start all c .empty).rest [] :=
      ⟨all.tokens, (List.append_nil _).symm, hw.symm⟩
    have first := Parser.yields_typeExpr.mpr ⟨w, u, [], split, hty, rfl, rfl⟩
    have read : Parser.Yields (do let t ← Parser.typeExpr r; Parser.expectEnd; return t) (.start all c .empty)
        (c.keep u).1 (((ParserState.start all c .empty).keeping u).facing []) :=
      Parser.yields_bind.mpr ⟨_, _, first, Parser.yields_bind.mpr ⟨(), _, yields_expectEnd rfl,
        Parser.yields_pure.mpr ⟨rfl, rfl⟩⟩⟩
    exact congrArg Reading.answer (run_of_yields htokens read)
  have cases : (∃ u, Denotes (all.tokens.map Token.word) u) ∨ ∃ cause rest, NoType all all.tokens cause rest := by
    obtain ⟨u, rest, front⟩ | ⟨cause, rest, h⟩ := front_or_deviates all (legible_of_not_longInteger (short all htokens))
    · by_cases hrest : rest = []
      · exact .inl ⟨u, Denotes.Front.all_iff.mp (hrest ▸ front)⟩
      · exact .inr ⟨_, _, .more front hrest⟩
    · exact .inr ⟨cause, rest, .fault h⟩
  refine ⟨fun t => ⟨fun h => ?_, ?_⟩, fun f h => ?_, fun cause rest => type_refuses hr htokens⟩
  · obtain ⟨u, hu⟩ | ⟨cause, rest, hno⟩ := cases
    · rw [reads hu] at h
      cases h
      exact ⟨u, hu, rfl, TypeContext.keep_same c u⟩
    · obtain ⟨f, hf, -⟩ := type_refuses (c := c) hr htokens hno
      rw [h] at hf
      cases hf
  · rintro ⟨u, hu, rfl, -⟩
    exact reads hu
  · obtain ⟨u, hu⟩ | ⟨cause, rest, hno⟩ := cases
    · rw [reads hu] at h
      cases h
    · obtain ⟨f', hf, hblames⟩ := type_refuses (c := c) hr htokens hno
      rw [h] at hf
      cases hf
      exact ⟨cause, rest, hno, hblames⟩

end

/-- The count of a controlled gate is checked before its base, which is not one that can be controlled. -/
theorem Reading.type_answers_noControls : ∃ all, TokenStream.ofText "cgate<0, i8>" = .ok all ∧ ¬ all.LongInteger ∧
    ∃ f, (Reading.type .standard "cgate<0, i8>" .default).answer = .error f ∧
      f.Blames all (.malformedType "cgate" (.controlCount 0)) (all.tokens.drop 2) := by
  have tokens : TokenStream.ofText "cgate<0, i8>" = .ok
      ⟨[⟨.word, "cgate", ⟨1, 1, 0⟩⟩, ⟨.less, "<", ⟨1, 6, 5⟩⟩, ⟨.int, "0", ⟨1, 7, 6⟩⟩, ⟨.comma, ",", ⟨1, 8, 7⟩⟩,
        ⟨.word, "i8", ⟨1, 10, 9⟩⟩, ⟨.more, ">", ⟨1, 12, 11⟩⟩], ⟨1, 13, 12⟩⟩ := rfl
  have short : ∀ all, TokenStream.ofText "cgate<0, i8>" = .ok all → ¬ all.LongInteger := by
    intro all h
    rw [tokens] at h
    cases h
    unfold TokenStream.LongInteger
    decide
  have answers := Reading.type_answers (r := .standard) (c := .default) rfl short
  rw [tokens] at answers
  refine ⟨_, tokens, short _ tokens, answers.2.2 _ _ (.fault ?_)⟩
  have front : Denotes.Front [⟨.word, "i8", ⟨1, 10, 9⟩⟩, ⟨.more, ">", ⟨1, 12, 11⟩⟩] (.integer (.ofNat 8))
      [⟨.more, ">", ⟨1, 12, 11⟩⟩] := ⟨_, ⟨[_], rfl, rfl⟩, .integer (n := 8) (by decide) (by decide)⟩
  exact .controlCount (d := "0") ⟨[_, _], rfl, rfl⟩ ⟨[_, _], rfl, rfl⟩ front rfl rfl (by decide)

end GateAsm
