import GateAsm.Parser.Instruction

/-!
# Parsers that succeed

`Yields p s a t` says that the parser `p` reads the answer `a` from the state `s` and leaves the state
`t`. Each building block of parsers has one lemma here that says when it succeeds and with what, so that
a parser is taken apart by rewriting.
-/

namespace GateAsm

/-! ## States -/

namespace ParserState

def facing (s : ParserState) (ts : List Token) : ParserState := { s with rest := ts }

def withTags (s : ParserState) (tags : List (String × Attr)) : ParserState := { s with tags := tags }

def withBlock (s : ParserState) (b : Block) : ParserState := { s with block := b }

section
variable (s : ParserState) (ts us : List Token) (tags : List (String × Attr)) (b : Block)

@[simp] theorem rest_facing : (s.facing ts).rest = ts := rfl
@[simp] theorem block_facing : (s.facing ts).block = s.block := rfl
@[simp] theorem context_facing : (s.facing ts).context = s.context := rfl
@[simp] theorem tags_facing : (s.facing ts).tags = s.tags := rfl
@[simp] theorem facing_facing : (s.facing ts).facing us = s.facing us := rfl
@[simp] theorem facing_rest : s.facing s.rest = s := rfl

@[simp] theorem rest_withTags : (s.withTags tags).rest = s.rest := rfl
@[simp] theorem block_withTags : (s.withTags tags).block = s.block := rfl
@[simp] theorem context_withTags : (s.withTags tags).context = s.context := rfl
@[simp] theorem tags_withTags : (s.withTags tags).tags = tags := rfl
@[simp] theorem withTags_tags : s.withTags s.tags = s := rfl

@[simp] theorem rest_withBlock : (s.withBlock b).rest = s.rest := rfl
@[simp] theorem block_withBlock : (s.withBlock b).block = b := rfl
@[simp] theorem context_withBlock : (s.withBlock b).context = s.context := rfl
@[simp] theorem tags_withBlock : (s.withBlock b).tags = s.tags := rfl
@[simp] theorem withBlock_block : s.withBlock s.block = s := rfl

theorem withBlock_facing : (s.facing ts).withBlock b = (s.withBlock b).facing ts := rfl

end

end ParserState

namespace Parser

/-- The parser succeeds from `s` with the answer `a` and leaves `t`. -/
def Yields {α : Type} (p : Parser α) (s : ParserState) (a : α) (t : ParserState) : Prop := p s = (.ok a, t)

section
variable {α β : Type} {s t : ParserState}

theorem Yields.unique {p : Parser α} {a b : α} {u : ParserState} (h : Yields p s a t) (h' : Yields p s b u) :
    a = b ∧ t = u := by
  unfold Yields at h h'
  rw [h] at h'
  cases h'
  exact ⟨rfl, rfl⟩

/-! ## Control -/

@[simp]
theorem yields_pure {a b : α} : Yields (pure a) s b t ↔ b = a ∧ t = s := by
  constructor
  · intro h; cases h; exact ⟨rfl, rfl⟩
  · rintro ⟨rfl, rfl⟩; rfl

theorem bind_apply (p : Parser α) (f : α → Parser β) (s : ParserState) :
    (p >>= f) s = ExceptT.bindCont f (p s).1 (p s).2 := rfl

theorem get_bind_apply (f : ParserState → Parser α) (s : ParserState) : (get >>= f) s = f s s := rfl

@[simp]
theorem yields_bind {p : Parser α} {f : α → Parser β} {b : β} :
    Yields (p >>= f) s b t ↔ ∃ a u, Yields p s a u ∧ Yields (f a) u b t := by
  simp only [Yields, bind_apply]
  rcases p s with ⟨e | a, u⟩
  · constructor
    · intro h; cases h
    · rintro ⟨a, u', he, -⟩; cases he
  · constructor
    · intro h; exact ⟨a, u, rfl, h⟩
    · rintro ⟨a', u', he, h⟩; cases he; exact h

theorem Yields.bind_eq {p : Parser α} {f : α → Parser β} {a : α} (h : Yields p s a t) : (p >>= f) s = f a t := by
  rw [bind_apply, show p s = (.ok a, t) from h]
  rfl

/-- What is behind a parser matters only in the states that the parser leaves. -/
theorem bind_congr_at {p : Parser α} {f g : α → Parser β} (h : ∀ a t, Yields p s a t → f a t = g a t) :
    (p >>= f) s = (p >>= g) s := by
  rw [bind_apply, bind_apply]
  rcases hp : p s with ⟨e | a, t⟩
  · rfl
  · exact h a t hp

theorem bind_eq_error {p : Parser α} {f : α → Parser β} {e : ParseFailure} :
    (p >>= f) s = (.error e, t) ↔ p s = (.error e, t) ∨ ∃ a u, Yields p s a u ∧ f a u = (.error e, t) := by
  simp only [Yields, bind_apply]
  rcases p s with ⟨e' | a, u⟩
  · constructor
    · intro h
      cases h
      exact .inl rfl
    · rintro (h | ⟨a, u', h, -⟩)
      · cases h
        rfl
      · cases h
  · constructor
    · intro h
      exact .inr ⟨a, u, rfl, h⟩
    · rintro (h | ⟨a', u', h, hf⟩)
      · cases h
      · cases h
        exact hf

theorem map_apply (f : α → β) (p : Parser α) (s : ParserState) : (f <$> p) s = ((p s).1.map f, (p s).2) := by
  rw [map_eq_pure_bind, bind_apply]
  rcases p s with ⟨e | a, t⟩
  · rfl
  · rfl

@[simp]
theorem yields_map {p : Parser α} {f : α → β} {b : β} :
    Yields (f <$> p) s b t ↔ ∃ a, Yields p s a t ∧ b = f a := by
  rw [map_eq_pure_bind, yields_bind]
  simp only [yields_pure]
  constructor
  · rintro ⟨a, u, h, rfl, rfl⟩; exact ⟨a, h, rfl⟩
  · rintro ⟨a, h, rfl⟩; exact ⟨a, t, h, rfl, rfl⟩

@[simp]
theorem yields_ite {c : Prop} [Decidable c] {p q : Parser α} {a : α} :
    Yields (if c then p else q) s a t ↔ (c ∧ Yields p s a t) ∨ (¬c ∧ Yields q s a t) := by
  by_cases h : c <;> simp [h]

@[simp]
theorem yields_get {a : ParserState} : Yields get s a t ↔ a = s ∧ t = s := by
  constructor
  · intro h; cases h; exact ⟨rfl, rfl⟩
  · rintro ⟨rfl, rfl⟩; rfl

@[simp]
theorem yields_set {u : ParserState} {x : PUnit} : Yields (set u) s x t ↔ t = u := by
  constructor
  · intro h; cases h; rfl
  · rintro rfl; rfl

@[simp]
theorem yields_modify {f : ParserState → ParserState} {x : PUnit} :
    Yields (modify f) s x t ↔ t = f s := by
  constructor
  · intro h; cases h; rfl
  · rintro rfl; rfl

@[simp]
theorem not_yields_throw {e : ParseFailure} {a : α} : ¬ Yields (throw e) s a t := by
  intro h; cases h

@[simp]
theorem not_yields_fail {c : ParseCause} {l : Location} {a : α} : ¬ Yields (fail c l) s a t := by
  simp [fail]

@[simp]
theorem yields_require {ok : Bool} {c : ParseCause} {l : Location} {x : Unit} :
    Yields (require ok c l) s x t ↔ ok = true ∧ t = s := by
  simp [require]

/-! ## Single tokens -/

def nextKind (ts : List Token) : TokenKind := (ts.head?.map Token.kind).getD .endOfText

@[simp]
theorem nextKind_nil : nextKind [] = .endOfText := rfl

@[simp]
theorem nextKind_cons (t : Token) (ts : List Token) : nextKind (t :: ts) = t.kind := rfl

theorem ahead_zero (s : ParserState) : s.ahead 0 = s.rest.head?.getD s.endToken := by
  cases h : s.rest <;> simp [ParserState.ahead, h]

@[simp]
theorem kind_ahead_zero (s : ParserState) : (s.ahead 0).kind = nextKind s.rest := by
  rw [ahead_zero]
  cases s.rest <;> rfl

@[simp]
theorem yields_peek {n : Nat} {a : Token} : Yields (peek n) s a t ↔ a = s.ahead n ∧ t = s := by
  simp only [peek, yields_bind, yields_get, yields_pure]
  constructor
  · rintro ⟨u, v, ⟨rfl, rfl⟩, rfl, rfl⟩; exact ⟨rfl, rfl⟩
  · rintro ⟨rfl, rfl⟩; exact ⟨_, _, ⟨rfl, rfl⟩, rfl, rfl⟩

theorem peek_bind_apply {n : Nat} {f : Token → Parser α} : (peek n >>= f) s = f (s.ahead n) s :=
  Yields.bind_eq (yields_peek.mpr ⟨rfl, rfl⟩)

@[simp]
theorem yields_location {l : Location} : Yields location s l t ↔ l = (s.ahead 0).location ∧ t = s := by
  simp only [location, yields_bind, yields_peek, yields_pure]
  constructor
  · rintro ⟨u, v, ⟨rfl, rfl⟩, rfl, rfl⟩; exact ⟨rfl, rfl⟩
  · rintro ⟨rfl, rfl⟩; exact ⟨_, _, ⟨rfl, rfl⟩, rfl, rfl⟩

@[simp]
theorem yields_advance {a : Token} :
    Yields advance s a t ↔ a = s.ahead 0 ∧ t = s.facing (s.rest.drop 1) := by
  simp only [advance, yields_bind, yields_get, yields_set, yields_pure]
  constructor
  · rintro ⟨u, v, ⟨rfl, rfl⟩, -, w, rfl, rfl, rfl⟩; exact ⟨rfl, rfl⟩
  · rintro ⟨rfl, rfl⟩; exact ⟨_, _, ⟨rfl, rfl⟩, ⟨⟩, _, rfl, rfl, rfl⟩

theorem yields_get_bind {f : ParserState → Parser α} {a : α} :
    Yields (get >>= f) s a t ↔ Yields (f s) s a t := by
  simp only [yields_bind, yields_get]
  constructor
  · rintro ⟨u, v, ⟨rfl, rfl⟩, h⟩; exact h
  · intro h; exact ⟨_, _, ⟨rfl, rfl⟩, h⟩

theorem yields_peek_bind {n : Nat} {f : Token → Parser α} {a : α} :
    Yields (peek n >>= f) s a t ↔ Yields (f (s.ahead n)) s a t := by
  simp only [yields_bind, yields_peek]
  constructor
  · rintro ⟨u, v, ⟨rfl, rfl⟩, h⟩; exact h
  · intro h; exact ⟨_, _, ⟨rfl, rfl⟩, h⟩

theorem yields_location_bind {f : Location → Parser α} {a : α} :
    Yields (location >>= f) s a t ↔ Yields (f (s.ahead 0).location) s a t := by
  simp only [yields_bind, yields_location]
  constructor
  · rintro ⟨u, v, ⟨rfl, rfl⟩, h⟩; exact h
  · intro h; exact ⟨_, _, ⟨rfl, rfl⟩, h⟩

theorem yields_advance_bind {f : Token → Parser α} {a : α} :
    Yields (advance >>= f) s a t ↔ Yields (f (s.ahead 0)) (s.facing (s.rest.drop 1)) a t := by
  simp only [yields_bind, yields_advance]
  constructor
  · rintro ⟨u, v, ⟨rfl, rfl⟩, h⟩; exact h
  · intro h; exact ⟨_, _, ⟨rfl, rfl⟩, h⟩

theorem yields_require_bind {ok : Bool} {c : ParseCause} {l : Location} {f : Unit → Parser α} {a : α} :
    Yields (require ok c l >>= f) s a t ↔ ok = true ∧ Yields (f ()) s a t := by
  simp only [yields_bind, yields_require]
  constructor
  · rintro ⟨⟨⟩, u, ⟨h, rfl⟩, hf⟩; exact ⟨h, hf⟩
  · rintro ⟨h, hf⟩; exact ⟨(), s, ⟨h, rfl⟩, hf⟩

theorem yields_modify_bind {g : ParserState → ParserState} {f : PUnit → Parser α} {a : α} :
    Yields (modify g >>= f) s a t ↔ Yields (f ⟨⟩) (g s) a t := by
  simp only [yields_bind, yields_modify]
  constructor
  · rintro ⟨⟨⟩, u, rfl, h⟩; exact h
  · intro h; exact ⟨⟨⟩, _, rfl, h⟩

theorem ahead_of_rest {x : Token} {ts : List Token} (h : s.rest = x :: ts) : s.ahead 0 = x := by
  rw [ahead_zero, h]; rfl

theorem yields_optional {k : TokenKind} (hk : k ≠ .endOfText) {o : Option Token} :
    Yields (optional k) s o t ↔
      (∃ x ts, s.rest = x :: ts ∧ x.kind = k ∧ o = some x ∧ t = s.facing ts) ∨
      (nextKind s.rest ≠ k ∧ o = none ∧ t = s) := by
  simp only [optional, yields_bind, yields_peek, yields_ite, yields_pure, yields_advance]
  constructor
  · rintro ⟨u, v, ⟨rfl, rfl⟩, ⟨h, x, w, ⟨rfl, rfl⟩, rfl, rfl⟩ | ⟨h, rfl, rfl⟩⟩
    · cases hr : v.rest with
      | nil => simp [hr] at h; exact absurd h.symm hk
      | cons x ts =>
        left
        simp only [kind_ahead_zero, hr, nextKind_cons] at h
        exact ⟨x, ts, rfl, h, by simp [ahead_zero, hr], rfl⟩
    · right
      exact ⟨by simpa using h, rfl, rfl⟩
  · rintro (⟨x, ts, hr, hx, rfl, rfl⟩ | ⟨h, rfl, rfl⟩)
    · refine ⟨_, _, ⟨rfl, rfl⟩, .inl ⟨by simp [hr, hx], _, _, ⟨rfl, rfl⟩, ?_, ?_⟩⟩
      · simp [ahead_zero, hr]
      · simp [hr]
    · exact ⟨_, _, ⟨rfl, rfl⟩, .inr ⟨by simpa using h, rfl, rfl⟩⟩

theorem yields_expectAs {k : TokenKind} (hk : k ≠ .endOfText) {wanted : String} {x : Token} :
    Yields (expectAs k wanted) s x t ↔
      ∃ ts, s.rest = x :: ts ∧ x.kind = k ∧ t = s.facing ts := by
  simp only [expectAs, yields_bind, yields_peek, yields_ite, yields_advance, not_yields_fail, and_false, or_false]
  constructor
  · rintro ⟨u, v, ⟨rfl, rfl⟩, h, rfl, rfl⟩
    cases hr : v.rest with
    | nil => simp [hr] at h; exact absurd h.symm hk
    | cons y ts =>
      simp only [kind_ahead_zero, hr, nextKind_cons] at h
      exact ⟨ts, by simp [ahead_zero, hr], by simpa [ahead_zero, hr] using h, rfl⟩
  · rintro ⟨ts, hr, hx, rfl⟩
    exact ⟨_, _, ⟨rfl, rfl⟩, by simp [hr, hx], by simp [ahead_zero, hr], by simp [hr]⟩

theorem yields_expect {k : TokenKind} (hk : k ≠ .endOfText) {x : Token} :
    Yields (expect k) s x t ↔ ∃ ts, s.rest = x :: ts ∧ x.kind = k ∧ t = s.facing ts :=
  yields_expectAs hk

end

end Parser

end GateAsm
