import GateAsm.Proofs.Grammar.Word
import GateAsm.Proofs.Statement

/-!
# The grammar of types

A type is written as a single word, as a register with an optional size, or as a gate under an optional
number of control qubits. `yields_typeExpr` says that the parser reads exactly these forms, and that the
answer is the type that the context keeps for the one written.
-/

namespace GateAsm

/-! ## What reading a type does to the context -/

section
variable (c : TypeContext)

theorem TypeContext.keep_controlled (b : GateBase) (n : Option Nat) :
    c.keep (.controlled b n) = (c.intern b.ty).2.intern (.controlled b n) := rfl

theorem TypeContext.keep_base (b : GateBase) : c.keep b.ty = c.intern b.ty := by cases b <;> rfl

theorem TypeContext.keep_same (t : Ty) : (c.keep t).1.same t = true := by
  unfold keep
  split <;> exact intern_same ..

end

namespace ParserState

def interning (s : ParserState) (t : Ty) : ParserState :=
  if (s.context.intern t).2.size != s.context.size then
    { s with context := (s.context.intern t).2 }.record
      (.interned (s.context.intern t).1 (s.context.intern t).2.name)
  else { s with context := (s.context.intern t).2 }

def keeping (s : ParserState) : Ty → ParserState
  | .controlled b n => (s.interning b.ty).interning (.controlled b n)
  | t => s.interning t

def keepingAll (s : ParserState) (ts : List Ty) : ParserState := ts.foldl keeping s

section
variable (s : ParserState) (t : Ty) (ts : List Ty) (r : List Token) (tags : List (String × Attr))

@[simp]
theorem rest_interning : (s.interning t).rest = s.rest := by
  simp only [interning]; split <;> rfl

@[simp]
theorem block_interning : (s.interning t).block = s.block := by
  simp only [interning]; split <;> rfl

@[simp]
theorem tags_interning : (s.interning t).tags = s.tags := by
  simp only [interning]; split <;> rfl

@[simp]
theorem context_interning : (s.interning t).context = (s.context.intern t).2 := by
  simp only [interning]; split <;> rfl

theorem interning_facing : (s.facing r).interning t = (s.interning t).facing r := by
  unfold interning
  rw [apply_ite (facing · r)]
  rfl

theorem interning_withTags : (s.withTags tags).interning t = (s.interning t).withTags tags := by
  unfold interning
  rw [apply_ite (withTags · tags)]
  rfl

@[simp]
theorem rest_keeping : (s.keeping t).rest = s.rest := by
  unfold keeping; split <;> simp

@[simp]
theorem block_keeping : (s.keeping t).block = s.block := by
  unfold keeping; split <;> simp

@[simp]
theorem tags_keeping : (s.keeping t).tags = s.tags := by
  unfold keeping; split <;> simp

@[simp]
theorem context_keeping : (s.keeping t).context = (s.context.keep t).2 := by
  cases t <;> simp [keeping, TypeContext.keep]

theorem keeping_controlled (b : GateBase) (n : Option Nat) :
    s.keeping (.controlled b n) = (s.interning b.ty).interning (.controlled b n) := rfl

theorem keeping_base (b : GateBase) : s.keeping b.ty = s.interning b.ty := by cases b <;> rfl

theorem keeping_facing : (s.facing r).keeping t = (s.keeping t).facing r := by
  unfold keeping
  split
  · rw [interning_facing, interning_facing]
  · rw [interning_facing]

theorem keeping_withTags : (s.withTags tags).keeping t = (s.keeping t).withTags tags := by
  unfold keeping
  split
  · rw [interning_withTags, interning_withTags]
  · rw [interning_withTags]

@[simp]
theorem keepingAll_nil : s.keepingAll [] = s := rfl

@[simp]
theorem keepingAll_cons : s.keepingAll (t :: ts) = (s.keeping t).keepingAll ts := rfl

@[simp]
theorem block_keepingAll : (s.keepingAll ts).block = s.block := by
  induction ts generalizing s with
  | nil => rfl
  | cons t ts ih => rw [keepingAll_cons, ih, block_keeping]

@[simp]
theorem tags_keepingAll : (s.keepingAll ts).tags = s.tags := by
  induction ts generalizing s with
  | nil => rfl
  | cons t ts ih => rw [keepingAll_cons, ih, tags_keeping]

@[simp]
theorem context_keepingAll : (s.keepingAll ts).context = (s.context.keepAll ts).2 := by
  induction ts generalizing s with
  | nil => rfl
  | cons t ts ih => rw [keepingAll_cons, ih, context_keeping]; rfl

theorem keepingAll_facing : (s.facing r).keepingAll ts = (s.keepingAll ts).facing r := by
  induction ts generalizing s with
  | nil => rfl
  | cons t ts ih => rw [keepingAll_cons, keepingAll_cons, keeping_facing, ih]

theorem keepingAll_withTags : (s.withTags tags).keepingAll ts = (s.keepingAll ts).withTags tags := by
  induction ts generalizing s with
  | nil => rfl
  | cons t ts ih => rw [keepingAll_cons, keepingAll_cons, keeping_withTags, ih]

end

end ParserState

theorem Ty.base?_eq_of_same {a b : Ty} (h : a.same b = true) : a.base? = b.base? := by
  rw [Ty.same_iff] at h
  have hp : ∀ t : Ty, t.plain.base? = t.base? := by
    intro t; cases t <;> rfl
  rw [← hp a, ← hp b, h]

/-! ## Written types -/

inductive TypeSyntax
  | plain (word : String)
  | register (keyword : String) (size : Option String)
  | controlled (keyword : String) (count : Option String) (base : String)

namespace TypeSyntax

def countWords : Option String → List Word
  | none => []
  | some d => [⟨.int, d⟩, .mark .comma]

def words : TypeSyntax → List Word
  | plain w => [⟨.word, w⟩]
  | register k size => ⟨.word, k⟩ :: .mark .less :: ((size.map (Word.mk .int)).toList ++ [.mark .more])
  | controlled k count base =>
    ⟨.word, k⟩ :: .mark .less :: (countWords count ++ [⟨.word, base⟩, .mark .more])

def plainTy? (registry : Registry) (word : String) : Option Ty :=
  match Parser.builtinType? word with
  | some t => some t
  | none => match registry.keyword? word with
    | some .qubit => some .qubit
    | some .gate1 => some .gate1
    | some .gate2 => some .gate2
    | some .circuit => some .circuit
    | _ => none

def Introduces (registry : Registry) (word : String) (g : TypeGrammar) : Prop :=
  Parser.builtinType? word = none ∧ registry.keyword? word = some g

instance (registry : Registry) (word : String) (g : TypeGrammar) : Decidable (Introduces registry word g) := by
  unfold Introduces; infer_instance

def numberAbove? (low : Int) : Option String → Option (Option Nat)
  | none => some none
  | some d => (intLiteral? d).bind fun n => if low < n then some (some n.toNat) else none

theorem numberAbove?_some_iff {low : Int} {d : String} {m : Option Nat} :
    numberAbove? low (some d) = some m ↔ ∃ n, intLiteral? d = some n ∧ low < n ∧ m = some n.toNat := by
  simp only [numberAbove?, Option.bind_eq_some_iff]
  refine exists_congr fun n => and_congr_right fun _ => ?_
  split
  · next h => simp [h, eq_comm]
  · next h => simp [h]

/-- The type that is written, if the words for it are known and its numbers are in range. -/
def ty? (registry : Registry) : TypeSyntax → Option Ty
  | plain w => plainTy? registry w
  | register k size => if Introduces registry k .register then (numberAbove? 1 size).map .register else none
  | controlled k count base =>
    if Introduces registry k .cgate then
      ((plainTy? registry base).bind Ty.base?).bind fun b => (numberAbove? 0 count).map (.controlled b)
    else none

theorem ty?_register {registry : Registry} {k : String} {size : Option String} {t : Ty}
    (h : ty? registry (register k size) = some t) :
    Introduces registry k .register ∧ ∃ n, numberAbove? 1 size = some n ∧ t = .register n := by
  simp only [ty?] at h
  split at h
  · next hi =>
    obtain ⟨n, hn, rfl⟩ := Option.map_eq_some_iff.mp h
    exact ⟨hi, n, hn, rfl⟩
  · cases h

theorem ty?_controlled {registry : Registry} {k base : String} {count : Option String} {t : Ty}
    (h : ty? registry (controlled k count base) = some t) :
    Introduces registry k .cgate ∧ ∃ b n, (plainTy? registry base).bind Ty.base? = some b ∧
      numberAbove? 0 count = some n ∧ t = .controlled b n := by
  simp only [ty?] at h
  split at h
  · next hi =>
    obtain ⟨b, hb, h⟩ := Option.bind_eq_some_iff.mp h
    obtain ⟨n, hn, rfl⟩ := Option.map_eq_some_iff.mp h
    exact ⟨hi, b, n, hb, hn, rfl⟩
  · cases h

/-- Only a single word stands for a type that control qubits may be put in front of. -/
theorem eq_plain_of_base {registry : Registry} {w : TypeSyntax} {t : Ty} {b : GateBase}
    (h : w.ty? registry = some t) (hb : t.base? = some b) : ∃ k, w = plain k := by
  cases w with
  | plain k => exact ⟨k, rfl⟩
  | register k size =>
    obtain ⟨-, n, -, rfl⟩ := ty?_register h
    cases hb
  | controlled k count base =>
    obtain ⟨-, b', n, -, -, rfl⟩ := ty?_controlled h
    cases hb

theorem plainTy?_ne_controlled {registry : Registry} {k : String} {t : Ty} (h : plainTy? registry k = some t)
    (b : GateBase) (n : Option Nat) : t ≠ .controlled b n := by
  unfold plainTy? Parser.builtinType? at h
  rintro rfl
  grind

theorem keep_plain {registry : Registry} {k : String} {t : Ty} (h : plainTy? registry k = some t)
    (c : TypeContext) : c.keep t = c.intern t := by
  cases t with
  | controlled b n => exact absurd rfl (plainTy?_ne_controlled h b n)
  | _ => rfl

theorem keeping_plain {registry : Registry} {k : String} {t : Ty} (h : plainTy? registry k = some t)
    (s : ParserState) : s.keeping t = s.interning t := by
  cases t with
  | controlled b n => exact absurd rfl (plainTy?_ne_controlled h b n)
  | _ => rfl

def tys? (registry : Registry) : List TypeSyntax → Option (List Ty)
  | [] => some []
  | w :: ws => (w.ty? registry).bind fun t => (tys? registry ws).map (t :: ·)

theorem tys?_cons_iff {registry : Registry} {w : TypeSyntax} {ws : List TypeSyntax} {ts : List Ty} :
    tys? registry (w :: ws) = some ts ↔
      ∃ t us, w.ty? registry = some t ∧ tys? registry ws = some us ∧ ts = t :: us := by
  simp only [tys?, Option.bind_eq_some_iff, Option.map_eq_some_iff]
  constructor
  · rintro ⟨t, ht, us, hu, rfl⟩; exact ⟨t, us, ht, hu, rfl⟩
  · rintro ⟨t, us, ht, hu, rfl⟩; exact ⟨t, ht, us, hu, rfl⟩

def marked (k : TokenKind) : List TypeSyntax → List Word
  | [] => []
  | w :: ws => .mark k :: listed ((w :: ws).map words)

def next (k : TokenKind) : List TypeSyntax → TokenKind
  | [] => k
  | _ :: _ => .comma

end TypeSyntax

theorem TypeSyntax.words_ne_nil (w : TypeSyntax) : w.words ≠ [] := by
  cases w <;> exact List.cons_ne_nil _ _

namespace Parser

variable {registry : Registry} {s t : ParserState} {a : Ty}

@[simp]
theorem yields_intern {x : Ty} : Yields (intern x) s a t ↔ a = (s.context.intern x).1 ∧ t = s.interning x := by
  have run : Yields (intern x) s (s.context.intern x).1 (s.interning x) := by
    unfold intern ParserState.interning
    simp only [yields_bind, yields_get, yields_set, yields_ite, yields_pure, record, yields_modify]
    split
    · next h => exact ⟨_, _, ⟨rfl, rfl⟩, ⟨⟩, _, rfl, .inl ⟨h, ⟨⟩, _, rfl, rfl, rfl⟩⟩
    · next h => exact ⟨_, _, ⟨rfl, rfl⟩, ⟨⟩, _, rfl, .inr ⟨h, rfl, rfl⟩⟩
  constructor
  · intro h; exact h.unique run
  · rintro ⟨rfl, rfl⟩; exact run

@[simp]
theorem not_yields_malformed {α : Type} {keyword : String} {x : α} : ¬ Yields (malformed keyword) s x t := by
  simp [malformed]

theorem yields_argumentToken {α : Type} {keyword : String} {k : TokenKind} {p : Parser α} {x : α}
    (hk : k.isVaried = false) (he : k ≠ .endOfText) :
    Yields (argumentToken keyword k >>= fun _ => p) s x t ↔
      ∃ ts, Splits [.mark k] s.rest ts ∧ Yields p (s.facing ts) x t := by
  rw [yields_bind]
  unfold argumentToken
  simp only [yields_unlessMark hk he, not_yields_malformed, and_false, or_false, yields_pure]
  constructor
  · rintro ⟨-, u, ⟨ts, h, -, rfl⟩, hp⟩; exact ⟨ts, h, hp⟩
  · rintro ⟨ts, h, hp⟩; exact ⟨⟨⟩, _, ⟨ts, h, ⟨⟩, rfl⟩, hp⟩

theorem yields_optionalInt {α : Type} {f : Option Token → Parser α} {x : α} :
    Yields (optional .int >>= f) s x t ↔
      (∃ d ts, s.rest = d :: ts ∧ d.kind = .int ∧ Yields (f (some d)) (s.facing ts) x t) ∨
      (nextKind s.rest ≠ .int ∧ Yields (f none) s x t) := by
  simp only [yields_bind, yields_optional (k := .int) (by decide)]
  constructor
  · rintro ⟨o, u, ⟨d, ts, hr, hd, rfl, rfl⟩ | ⟨hn, rfl, rfl⟩, h⟩
    · exact .inl ⟨d, ts, hr, hd, h⟩
    · exact .inr ⟨hn, h⟩
  · rintro (⟨d, ts, hr, hd, h⟩ | ⟨hn, h⟩)
    · exact ⟨some d, _, .inl ⟨d, ts, hr, hd, rfl, rfl⟩, h⟩
    · exact ⟨none, _, .inr ⟨hn, rfl, rfl⟩, h⟩

theorem yields_registerArguments {keyword : String} :
    Yields (registerArguments keyword) s a t ↔
      ∃ size n rest, Splits (.mark .less :: ((size.map (Word.mk .int)).toList ++ [.mark .more])) s.rest rest ∧
        TypeSyntax.numberAbove? 1 size = some n ∧ a = (s.context.intern (.register n)).1 ∧
        t = (s.interning (.register n)).facing rest := by
  unfold registerArguments
  rw [yields_argumentToken rfl (by decide)]
  simp only [yields_optionalInt, yields_argumentToken (k := .more) rfl (by decide)]
  simp only [yields_bind, yields_integerOf, yields_ite, not_yields_fail, and_false, false_or, yields_intern,
    ParserState.facing_facing, ParserState.interning_facing, ParserState.context_facing, ParserState.rest_facing]
  constructor
  · rintro ⟨us, hl, ⟨d, vs, hr, hd, ws, hm, n, u, ⟨hn, rfl⟩, hlow, rfl, rfl⟩ | ⟨hn, ws, hm, rfl, rfl⟩⟩
    · refine ⟨some d.text, some n.toNat, ws, ?_, ?_, rfl, ParserState.interning_facing ..⟩
      · refine hl.append (Splits.cons_iff.mpr ⟨d, vs, hr, ?_, hm⟩)
        exact (Token.word_eq_iff rfl).mpr ⟨hd, rfl⟩
      · exact TypeSyntax.numberAbove?_some_iff.mpr ⟨n, hn, Int.lt_of_not_ge hlow, rfl⟩
    · exact ⟨none, none, ws, hl.append hm, rfl, rfl, rfl⟩
  · rintro ⟨size, n, rest, hs, hn, rfl, rfl⟩
    obtain ⟨us, hl, hs⟩ := Splits.first_iff.mp hs
    refine ⟨us, hl, ?_⟩
    cases size with
    | none =>
      cases hn
      exact .inr ⟨by rw [hs.nextKind_eq rfl]; decide, rest, hs, rfl, rfl⟩
    | some d =>
      obtain ⟨x, vs, hr, hx, hm⟩ := Splits.cons_iff.mp hs
      obtain ⟨hk, rfl⟩ := (Token.word_eq_iff rfl).mp hx
      obtain ⟨m, hm', hlow, rfl⟩ := TypeSyntax.numberAbove?_some_iff.mp hn
      exact .inl ⟨x, vs, hr, hk, rest, hm, m, _, ⟨hm', rfl⟩, by omega, rfl, (ParserState.interning_facing ..).symm⟩

theorem yields_controlCount {keyword : String} {x : Token} {n : Nat} :
    Yields (controlCount keyword x) s n t ↔ TypeSyntax.numberAbove? 0 (some x.text) = some (some n) ∧ t = s := by
  unfold controlCount
  simp only [yields_bind, yields_integerOf, yields_ite, not_yields_fail, and_false, false_or, yields_pure,
    TypeSyntax.numberAbove?_some_iff]
  constructor
  · rintro ⟨m, u, ⟨hm, rfl⟩, hlow, rfl, rfl⟩
    exact ⟨⟨m, hm, by omega, rfl⟩, rfl⟩
  · rintro ⟨⟨m, hm, hlow, hn⟩, rfl⟩
    exact ⟨m, _, ⟨hm, rfl⟩, by omega, Option.some.inj hn, rfl⟩

theorem yields_controlPrefix {keyword : String} {o : Option Token} :
    Yields (controlPrefix keyword) s o t ↔
      ∃ rest, Splits (TypeSyntax.countWords (o.map Token.text)) s.rest rest ∧ t = s.facing rest ∧
        (o = none → nextKind s.rest ≠ .int) ∧ ∀ d ∈ o, s.rest.head? = some d := by
  unfold controlPrefix
  simp only [yields_optionalInt, yields_argumentToken (k := .comma) rfl (by decide), yields_pure,
    ParserState.facing_facing, ParserState.rest_facing]
  constructor
  · rintro (⟨d, us, hr, hd, ts, hc, rfl, rfl⟩ | ⟨hn, rfl, rfl⟩)
    · refine ⟨ts, Splits.cons_iff.mpr ⟨d, us, hr, (Token.word_eq_iff rfl).mpr ⟨hd, rfl⟩, hc⟩, rfl, by simp, ?_⟩
      intro x hx
      cases hx
      rw [hr]; rfl
    · exact ⟨_, Splits.nil_iff.mpr rfl, rfl, fun _ => hn, by simp⟩
  · rintro ⟨rest, hs, rfl, hn, ho⟩
    cases o with
    | none =>
      obtain rfl := Splits.nil_iff.mp hs
      exact .inr ⟨hn rfl, rfl, rfl⟩
    | some d =>
      obtain ⟨x, us, hr, hx, hc⟩ := Splits.cons_iff.mp hs
      have hd := ho d rfl
      rw [hr] at hd
      cases hd
      exact .inl ⟨_, us, hr, ((Token.word_eq_iff rfl).mp hx).1, rest, hc, rfl, rfl⟩

@[simp]
theorem yields_wordAhead {keyword : String} {x : Token} :
    Yields (wordAhead keyword) s x t ↔ nextKind s.rest = .word ∧ x = s.ahead 0 ∧ t = s := by
  unfold wordAhead
  simp only [yields_bind, yields_peek, yields_ite, not_yields_malformed, and_false, false_or, yields_pure]
  constructor
  · rintro ⟨y, u, ⟨rfl, rfl⟩, h, rfl, rfl⟩
    exact ⟨by simpa using h, rfl, rfl⟩
  · rintro ⟨h, rfl, rfl⟩
    exact ⟨_, _, ⟨rfl, rfl⟩, by simpa using h, rfl, rfl⟩

@[simp]
theorem yields_optionalCount {keyword : String} {o : Option Token} {n : Option Nat} :
    Yields (optionalCount keyword o) s n t ↔ TypeSyntax.numberAbove? 0 (o.map Token.text) = some n ∧ t = s := by
  cases o with
  | none => simp [optionalCount, TypeSyntax.numberAbove?, eq_comm]
  | some d =>
    simp only [optionalCount, yields_map, yields_controlCount, Option.map_some]
    constructor
    · rintro ⟨m, ⟨hm, rfl⟩, rfl⟩
      exact ⟨hm, rfl⟩
    · rintro ⟨hn, rfl⟩
      obtain ⟨m, -, -, rfl⟩ := TypeSyntax.numberAbove?_some_iff.mp hn
      exact ⟨m.toNat, ⟨hn, rfl⟩, rfl⟩

@[simp]
theorem yields_controlledType {base : Ty} {count : Option Nat} {l : Location} :
    Yields (controlledType base count l) s a t ↔
      ∃ b, base.base? = some b ∧ a = (s.context.intern (.controlled b count)).1 ∧
        t = s.interning (.controlled b count) := by
  unfold controlledType
  cases base.base? with
  | none => simp
  | some b => simp

theorem yields_controlledArguments {keyword : String} {inner : Parser Ty}
    (reads : ∀ {u v : ParserState} {b : Ty}, u.rest.Sublist s.rest → (Yields inner u b v ↔
      ∃ w ty rest, Splits (TypeSyntax.words w) u.rest rest ∧ w.ty? registry = some ty ∧
        b = (u.context.keep ty).1 ∧ v = (u.keeping ty).facing rest)) :
    Yields (controlledArguments keyword inner) s a t ↔
      ∃ count base b n rest,
        Splits (.mark .less :: (TypeSyntax.countWords count ++ [⟨.word, base⟩, .mark .more])) s.rest rest ∧
        (TypeSyntax.plainTy? registry base).bind Ty.base? = some b ∧
        TypeSyntax.numberAbove? 0 count = some n ∧ a = (s.context.keep (.controlled b n)).1 ∧
        t = (s.keeping (.controlled b n)).facing rest := by
  unfold controlledArguments
  rw [yields_argumentToken rfl (by decide)]
  simp only [yields_bind (p := controlPrefix keyword), yields_bind (p := wordAhead keyword),
    yields_bind (p := inner), yields_argumentToken (k := .more) rfl (by decide),
    yields_bind (p := optionalCount keyword _), yields_controlPrefix, yields_wordAhead, yields_optionalCount,
    yields_controlledType]
  constructor
  · rintro ⟨us, hl, o, -, ⟨vs, hc, rfl, -, -⟩, -, -, ⟨hw, rfl, rfl⟩, base, u, hb, ws, hm, n, -, ⟨hn, rfl⟩, b,
      hbase, rfl, rfl⟩
    obtain ⟨w, ty, xs, hs, hty, rfl, rfl⟩ := (reads (hc.sublist.trans hl.sublist)).mp hb
    have hty' : ty.base? = some b := by
      rw [← Ty.base?_eq_of_same (TypeContext.keep_same _ _)]; exact hbase
    -- control qubits may be put in front of the base, so it is a single word
    obtain ⟨k, rfl⟩ := TypeSyntax.eq_plain_of_base hty hty'
    obtain rfl := Ty.base?_eq_some_iff.mp hty'
    refine ⟨o.map Token.text, k, b, n, ws, hl.append (hc.append (hs.append hm)), ?_, hn, ?_, ?_⟩
    · rw [show TypeSyntax.plainTy? registry k = some b.ty from hty]; exact hty'
    · simp only [ParserState.context_facing, ParserState.context_keeping, TypeContext.keep_controlled,
        TypeContext.keep_base]
    · simp only [ParserState.interning_facing, ParserState.facing_facing, ParserState.keeping_controlled,
        ParserState.keeping_base]
  · rintro ⟨count, base, b, n, rest, hs, hbase, hn, rfl, rfl⟩
    obtain ⟨us, hl, hs⟩ := Splits.first_iff.mp hs
    obtain ⟨vs, hc, hs⟩ := Splits.append_iff.mp hs
    obtain ⟨ws, hb, hm⟩ := Splits.first_iff.mp hs
    obtain ⟨ty, hty, htb⟩ := Option.bind_eq_some_iff.mp hbase
    obtain rfl := Ty.base?_eq_some_iff.mp htb
    have inside := (reads (b := (s.context.keep b.ty).1) (u := s.facing vs) (v := (s.keeping b.ty).facing ws)
      (hc.sublist.trans hl.sublist)).mpr
        ⟨.plain base, b.ty, ws, hb, hty, rfl, by rw [ParserState.keeping_facing, ParserState.facing_facing]⟩
    -- the token of the count, if there is one
    obtain ⟨o, rfl, ho, hhead⟩ : ∃ o : Option Token, o.map Token.text = count ∧
        (o = none → nextKind us ≠ .int) ∧ ∀ d ∈ o, us.head? = some d := by
      cases count with
      | none =>
        obtain rfl := Splits.nil_iff.mp hc
        exact ⟨none, rfl, fun _ => by rw [hb.nextKind_eq rfl]; exact nofun, nofun⟩
      | some d =>
        obtain ⟨x, xs, rfl, hx, -⟩ := Splits.cons_iff.mp hc
        exact ⟨some x, by rw [Option.map_some, ((Token.word_eq_iff rfl).mp hx).2], nofun, fun d hd => hd⟩
    refine ⟨us, hl, o, _, ⟨vs, hc, rfl, ho, hhead⟩, _, _, ⟨hb.nextKind_eq rfl, rfl, rfl⟩, _, _, inside, rest, hm,
      n, _, ⟨hn, rfl⟩, b, ?_, ?_, ?_⟩
    · rw [Ty.base?_eq_of_same (TypeContext.keep_same _ _)]; exact htb
    · simp only [ParserState.context_facing, ParserState.context_keeping, TypeContext.keep_controlled,
        TypeContext.keep_base]
    · simp only [ParserState.interning_facing, ParserState.facing_facing,
        ParserState.keeping_controlled, ParserState.keeping_base]

theorem yields_typeWithin_succ {fuel : Nat} {x : Token} {ts : List Token} (hr : s.rest = x :: ts) :
    Yields (typeWithin registry (fuel + 1)) s a t ↔ x.kind = .word ∧
      ((∃ ty, TypeSyntax.plainTy? registry x.text = some ty ∧ a = (s.context.intern ty).1 ∧
          t = (s.interning ty).facing ts) ∨
        (TypeSyntax.Introduces registry x.text .register ∧ Yields (registerArguments x.text) (s.facing ts) a t) ∨
        (TypeSyntax.Introduces registry x.text .cgate ∧
          Yields (controlledArguments x.text (typeWithin registry fuel)) (s.facing ts) a t)) := by
  have hx : s.ahead 0 = x := by simp [ParserState.ahead, hr]
  have hd : s.rest.drop 1 = ts := by rw [hr]; rfl
  have ready : Yields (typeWithin registry (fuel + 1)) s a t ↔ x.kind = .word ∧
      Yields (typeAt registry x (typeWithin registry fuel)) (s.facing ts) a t := by
    simp only [typeWithin, yields_bind, yields_peek, yields_advance, yields_ite, not_yields_fail, false_and,
      exists_false, and_false, false_or]
    constructor
    · rintro ⟨y, u, ⟨rfl, rfl⟩, hk, z, v, ⟨rfl, rfl⟩, hy⟩
      rw [hx] at hy hk
      rw [hd] at hy
      exact ⟨by simpa using hk, hy⟩
    · rintro ⟨hk, hy⟩
      refine ⟨x, s, ⟨hx.symm, rfl⟩, by simpa using hk, x, s.facing ts, ⟨hx.symm, by rw [hd]⟩, hy⟩
  rw [ready]
  refine and_congr_right fun _ => ?_
  unfold typeAt TypeSyntax.plainTy? TypeSyntax.Introduces
  cases builtinType? x.text with
  | some b => simp [ParserState.interning_facing]
  | none =>
    cases registry.keyword? x.text with
    | none => simp
    | some g => cases g <;> simp [ParserState.interning_facing]

theorem not_yields_typeWithin {fuel : Nat} (hr : s.rest = []) : ¬ Yields (typeWithin registry fuel) s a t := by
  intro hy
  cases fuel with
  | zero => simp [typeWithin] at hy
  | succ fuel =>
    simp only [typeWithin, yields_bind, yields_peek, yields_ite, not_yields_fail, false_and, exists_false, and_false,
      false_or] at hy
    obtain ⟨y, u, ⟨rfl, rfl⟩, hk, -⟩ := hy
    simp [hr] at hk

theorem yields_typeWithin_cons {fuel : Nat} {x : Token} {ts : List Token} (hr : s.rest = x :: ts)
    (reads : ∀ {u v : ParserState} {b : Ty}, u.rest.Sublist ts → (Yields (typeWithin registry fuel) u b v ↔
      ∃ w ty rest, Splits (TypeSyntax.words w) u.rest rest ∧ w.ty? registry = some ty ∧
        b = (u.context.keep ty).1 ∧ v = (u.keeping ty).facing rest)) :
    Yields (typeWithin registry (fuel + 1)) s a t ↔
      ∃ w ty rest, Splits (TypeSyntax.words w) (x :: ts) rest ∧ w.ty? registry = some ty ∧
        a = (s.context.keep ty).1 ∧ t = (s.keeping ty).facing rest := by
  rw [yields_typeWithin_succ hr, yields_registerArguments, yields_controlledArguments reads]
  constructor
  · rintro ⟨hk, ⟨ty, hty, rfl, rfl⟩ | ⟨hi, size, n, rest, hs, hn, rfl, rfl⟩ |
      ⟨hi, count, base, b, n, rest, hs, hb, hn, rfl, rfl⟩⟩
    · refine ⟨.plain x.text, ty, ts, ?_, hty, ?_, ?_⟩
      · exact (Splits.varied_cons_iff rfl).mpr ⟨⟨hk, rfl⟩, Splits.nil_iff.mpr rfl⟩
      · rw [TypeSyntax.keep_plain hty]
      · rw [TypeSyntax.keeping_plain hty]
    · refine ⟨.register x.text size, .register n, rest, (Splits.varied_cons_iff rfl).mpr ⟨⟨hk, rfl⟩, hs⟩,
        ?_, rfl, ?_⟩
      · rw [TypeSyntax.ty?, if_pos hi, hn]; rfl
      · rw [ParserState.interning_facing, ParserState.facing_facing]; rfl
    · refine ⟨.controlled x.text count base, .controlled b n, rest, (Splits.varied_cons_iff rfl).mpr ⟨⟨hk, rfl⟩, hs⟩,
        ?_, rfl, ?_⟩
      · rw [TypeSyntax.ty?, if_pos hi, hb, hn]; rfl
      · rw [ParserState.keeping_facing, ParserState.facing_facing]
  · rintro ⟨w, ty, rest, hs, hty, rfl, rfl⟩
    cases w with
    | plain k =>
      obtain ⟨⟨hk, rfl⟩, htail⟩ := (Splits.varied_cons_iff rfl).mp hs
      obtain rfl := Splits.nil_iff.mp htail
      exact ⟨hk, .inl ⟨ty, hty, by rw [TypeSyntax.keep_plain hty], by rw [TypeSyntax.keeping_plain hty]⟩⟩
    | register k size =>
      obtain ⟨⟨hk, rfl⟩, htail⟩ := (Splits.varied_cons_iff rfl).mp hs
      obtain ⟨hi, n, hn, rfl⟩ := TypeSyntax.ty?_register hty
      refine ⟨hk, .inr (.inl ⟨hi, size, n, rest, htail, hn, rfl, ?_⟩)⟩
      rw [ParserState.interning_facing, ParserState.facing_facing]; rfl
    | controlled k count base =>
      obtain ⟨⟨hk, rfl⟩, htail⟩ := (Splits.varied_cons_iff rfl).mp hs
      obtain ⟨hi, b, n, hb, hn, rfl⟩ := TypeSyntax.ty?_controlled hty
      refine ⟨hk, .inr (.inr ⟨hi, count, base, b, n, rest, htail, hb, hn, rfl, ?_⟩)⟩
      rw [ParserState.keeping_facing, ParserState.facing_facing]

theorem yields_typeWithin (fuel : Nat) (h : s.rest.length ≤ fuel) :
    Yields (typeWithin registry fuel) s a t ↔
      ∃ w ty rest, Splits (TypeSyntax.words w) s.rest rest ∧ w.ty? registry = some ty ∧
        a = (s.context.keep ty).1 ∧ t = (s.keeping ty).facing rest := by
  induction fuel generalizing s t a with
  | zero =>
    have hr : s.rest = [] := List.length_eq_zero_iff.mp (Nat.le_zero.mp h)
    refine iff_of_false (not_yields_typeWithin hr) ?_
    rintro ⟨w, ty, rest, hs, -⟩
    exact hs.ne_nil w.words_ne_nil hr
  | succ fuel ih =>
    cases hr : s.rest with
    | nil =>
      refine iff_of_false (not_yields_typeWithin hr) ?_
      rintro ⟨w, ty, rest, hs, -⟩
      exact hs.ne_nil w.words_ne_nil rfl
    | cons x ts =>
      -- the base of a controlled gate stands behind the word, where less fuel is enough
      refine yields_typeWithin_cons hr fun hu => ih (Nat.le_trans hu.length_le ?_)
      rw [hr, List.length_cons] at h
      exact Nat.le_of_succ_le_succ h

/-- The parser of types reads exactly the written types. -/
theorem yields_typeExpr :
    Yields (typeExpr registry) s a t ↔
      ∃ w ty rest, Splits (TypeSyntax.words w) s.rest rest ∧ w.ty? registry = some ty ∧
        a = (s.context.keep ty).1 ∧ t = (s.keeping ty).facing rest := by
  rw [← yields_typeWithin s.rest.length (Nat.le_refl _)]
  simp only [typeExpr, yields_bind, yields_get]
  constructor
  · rintro ⟨u, v, ⟨rfl, rfl⟩, h⟩; exact h
  · intro h; exact ⟨_, _, ⟨rfl, rfl⟩, h⟩

theorem yields_moreTypes {ts : List Ty} (fuel : Nat) (h : s.rest.length ≤ fuel) :
    Yields (moreTypes registry fuel) s ts t ↔
      ∃ ws us rest, Splits ((ws.map TypeSyntax.words).flatMap (.mark .comma :: ·)) s.rest rest ∧
        TypeSyntax.tys? registry ws = some us ∧ nextKind rest ≠ .comma ∧ ts = (s.context.keepAll us).1 ∧
        t = (s.keepingAll us).facing rest := by
  induction fuel generalizing s t ts with
  | zero =>
    have hr : s.rest = [] := List.length_eq_zero_iff.mp (by omega)
    simp only [moreTypes, yields_pure]
    constructor
    · rintro ⟨rfl, rfl⟩
      exact ⟨[], [], t.rest, Splits.nil_iff.mpr rfl, rfl, by rw [hr]; decide, rfl, rfl⟩
    · rintro ⟨ws, us, rest, hs, hu, -, rfl, rfl⟩
      cases ws with
      | nil => cases hu; rw [← Splits.nil_iff.mp hs]; exact ⟨rfl, rfl⟩
      | cons w ws => exact absurd hr (hs.ne_nil (List.cons_ne_nil _ _))
  | succ fuel ih =>
    simp only [moreTypes, yields_unlessMark (k := .comma) rfl (by decide), yields_pure]
    simp only [yields_bind, yields_typeExpr, yields_pure]
    constructor
    · rintro (⟨us, hc, a, u, ⟨w, ty, vs, hs, hty, rfl, rfl⟩, as, v, hm, rfl, rfl⟩ | ⟨hn, rfl, rfl⟩)
      · have hlen : vs.length ≤ fuel := (hc.append hs).rest_le (List.cons_ne_nil _ _) h
        obtain ⟨ws, tys, rest, hr, hu, hn, rfl, rfl⟩ := (ih hlen).mp hm
        refine ⟨w :: ws, ty :: tys, rest, ?_, TypeSyntax.tys?_cons_iff.mpr ⟨ty, tys, hty, hu, rfl⟩, hn, ?_, ?_⟩
        · exact hc.append (hs.append hr)
        · simp [TypeContext.keepAll]
        · simp [ParserState.keeping_facing, ParserState.keepingAll_facing]
      · exact ⟨[], [], t.rest, Splits.nil_iff.mpr rfl, rfl, hn, rfl, rfl⟩
    · rintro ⟨ws, tys, rest, hs, hu, hn, rfl, rfl⟩
      cases ws with
      | nil =>
        cases hu
        obtain rfl := Splits.nil_iff.mp hs
        exact .inr ⟨hn, rfl, rfl⟩
      | cons w ws =>
        obtain ⟨ty, us, hty, hus, rfl⟩ := TypeSyntax.tys?_cons_iff.mp hu
        obtain ⟨xs, hc, hs⟩ := Splits.first_iff.mp hs
        obtain ⟨ys, hw, hs⟩ := Splits.append_iff.mp hs
        have hlen : ys.length ≤ fuel := (hc.append hw).rest_le (List.cons_ne_nil _ _) h
        refine .inl ⟨xs, hc, _, _, ⟨w, ty, ys, hw, hty, rfl, rfl⟩, (((s.context.keep ty).2).keepAll us).1,
          ((s.keeping ty).keepingAll us).facing rest, ?_, rfl, rfl⟩
        rw [ih hlen]
        refine ⟨ws, us, rest, hs, hus, hn, by simp, ?_⟩
        simp [ParserState.keeping_facing, ParserState.keepingAll_facing]

theorem yields_typeList {ts : List Ty} :
    Yields (typeList registry) s ts t ↔
      ∃ w ws us rest, Splits (listed ((w :: ws).map TypeSyntax.words)) s.rest rest ∧
        TypeSyntax.tys? registry (w :: ws) = some us ∧ nextKind rest ≠ .comma ∧ ts = (s.context.keepAll us).1 ∧
        t = (s.keepingAll us).facing rest := by
  simp only [typeList, yields_bind, yields_typeExpr, yields_get, yields_pure]
  constructor
  · rintro ⟨a, u, ⟨w, ty, rest, hs, hty, rfl, rfl⟩, -, -, ⟨rfl, rfl⟩, as, v, hm, rfl, rfl⟩
    obtain ⟨ws, us, rest', hmore, hu, hn, rfl, rfl⟩ := (yields_moreTypes _ (Nat.le_refl _)).mp hm
    refine ⟨w, ws, ty :: us, rest', hs.append hmore, TypeSyntax.tys?_cons_iff.mpr ⟨ty, us, hty, hu, rfl⟩, hn, ?_, ?_⟩
    · simp [TypeContext.keepAll]
    · simp [ParserState.keepingAll_facing]
  · rintro ⟨w, ws, us, rest, hs, hu, hn, rfl, rfl⟩
    obtain ⟨ty, us, hty, hus, rfl⟩ := TypeSyntax.tys?_cons_iff.mp hu
    obtain ⟨xs, hw, hm⟩ := Splits.append_iff.mp hs
    refine ⟨_, _, ⟨w, ty, xs, hw, hty, rfl, rfl⟩, _, _, ⟨rfl, rfl⟩, _, _, (yields_moreTypes _ (Nat.le_refl _)).mpr
      ⟨ws, us, rest, hm, hus, hn, rfl, rfl⟩, ?_, ?_⟩
    · simp [TypeContext.keepAll]
    · simp [ParserState.keepingAll_facing]

theorem yields_markedTypes {ts : List Ty} {k : TokenKind} (hk : k.isVaried = false) (he : k ≠ .endOfText) :
    Yields (optional k >>= fun o => if o.isNone = true then pure [] else typeList registry) s ts t ↔
      ∃ ws us rest, Splits (TypeSyntax.marked k ws) s.rest rest ∧ TypeSyntax.tys? registry ws = some us ∧
        nextKind rest ≠ TypeSyntax.next k ws ∧ ts = (s.context.keepAll us).1 ∧
        t = (s.keepingAll us).facing rest := by
  rw [yields_unlessMark hk he]
  simp only [yields_typeList, yields_pure]
  constructor
  · rintro (⟨us, hm, w, ws, tys, rest, hs, hu, hn, rfl, rfl⟩ | ⟨hn, rfl, rfl⟩)
    · refine ⟨w :: ws, tys, rest, hm.append hs, hu, hn, rfl, ?_⟩
      simp [ParserState.keepingAll_facing]
    · exact ⟨[], [], t.rest, Splits.nil_iff.mpr rfl, rfl, hn, rfl, rfl⟩
  · rintro ⟨ws, us, rest, hs, hu, hn, rfl, rfl⟩
    cases ws with
    | nil =>
      cases hu
      obtain rfl := Splits.nil_iff.mp hs
      exact .inr ⟨hn, rfl, rfl⟩
    | cons w ws =>
      obtain ⟨xs, hm, hs⟩ := Splits.first_iff.mp hs
      refine .inl ⟨xs, hm, w, ws, us, rest, hs, hu, hn, rfl, ?_⟩
      simp [ParserState.keepingAll_facing]

theorem yields_colonTypes {ts : List Ty} :
    Yields (colonTypes registry) s ts t ↔
      ∃ ws us rest, Splits (TypeSyntax.marked .colon ws) s.rest rest ∧ TypeSyntax.tys? registry ws = some us ∧
        nextKind rest ≠ TypeSyntax.next .colon ws ∧ ts = (s.context.keepAll us).1 ∧
        t = (s.keepingAll us).facing rest :=
  yields_markedTypes rfl (by decide)

theorem yields_arrowTypes {ts : List Ty} :
    Yields (arrowTypes registry) s ts t ↔
      ∃ ws us rest, Splits (TypeSyntax.marked .arrow ws) s.rest rest ∧ TypeSyntax.tys? registry ws = some us ∧
        nextKind rest ≠ TypeSyntax.next .arrow ws ∧ ts = (s.context.keepAll us).1 ∧
        t = (s.keepingAll us).facing rest :=
  yields_markedTypes rfl (by decide)

theorem length_keepAll (c : TypeContext) (ts : List Ty) : (c.keepAll ts).1.length = ts.length := by
  induction ts generalizing c with
  | nil => rfl
  | cons t ts ih => simp [TypeContext.keepAll, ih]

end Parser

end GateAsm
