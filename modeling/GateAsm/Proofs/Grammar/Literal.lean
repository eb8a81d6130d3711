import GateAsm.Proofs.Grammar.Word
import GateAsm.Proofs.Tags

/-!
# The grammar of literals and tags

A tag holds a number, a string, a symbol, a truth value or a list of these. `yields_literal` and
`yields_optionalTags` say that the parser reads exactly the written forms, and which values they are.
-/

namespace GateAsm

inductive LiteralSyntax
  | int (digits : String)
  | float (digits : String)
  | str (quoted : String)
  | symbol (name : String)
  | bool (b : Bool)
  | list (items : List LiteralSyntax)

namespace LiteralSyntax

mutual

def words : LiteralSyntax → List Word
  | int d => [⟨.int, d⟩]
  | float d => [⟨.float, d⟩]
  | str q => [⟨.string, q⟩]
  | symbol n => [⟨.symbolName, n⟩]
  | bool b => [⟨.word, Attr.boolLiteral b⟩]
  | list items => .mark .openBracket :: (listed (itemWords items) ++ [.mark .closeBracket])

def itemWords : List LiteralSyntax → List (List Word)
  | [] => []
  | w :: ws => words w :: itemWords ws

end

mutual

def value? : LiteralSyntax → Option Attr
  | int d => (intLiteral? d).map .int
  | float d => (floatLiteral? d).map .float
  | str q => (Json.readString? q).map .str
  | symbol n => some (.symbol (.text (String.ofList (n.toList.drop 1))))
  | bool b => some (.bool b)
  | list items => (values? items).map .tuple

def values? : List LiteralSyntax → Option (List Attr)
  | [] => some []
  | w :: ws => (value? w).bind fun v => (values? ws).map (v :: ·)

end

theorem values?_cons_iff {w : LiteralSyntax} {ws : List LiteralSyntax} {vs : List Attr} :
    values? (w :: ws) = some vs ↔ ∃ v us, w.value? = some v ∧ values? ws = some us ∧ vs = v :: us := by
  simp only [values?, Option.bind_eq_some_iff, Option.map_eq_some_iff]
  constructor
  · rintro ⟨v, hv, us, hu, rfl⟩; exact ⟨v, us, hv, hu, rfl⟩
  · rintro ⟨v, us, hv, hu, rfl⟩; exact ⟨v, hv, us, hu, rfl⟩

def starts : List TokenKind := [.int, .float, .string, .symbolName, .openBracket, .word]

theorem words_ne_nil (w : LiteralSyntax) : w.words ≠ [] := by
  cases w <;> simp [words]

end LiteralSyntax

/-! ## Tags -/

def tagWords (e : String × LiteralSyntax) : List Word := ⟨.word, e.1⟩ :: .mark .equal :: e.2.words

def tagValues? : List (String × LiteralSyntax) → Option (List (String × Attr))
  | [] => some []
  | e :: es => e.2.value?.bind fun v => (tagValues? es).map ((e.1, v) :: ·)

theorem tagValues?_cons_iff {e : String × LiteralSyntax} {es : List (String × LiteralSyntax)}
    {tags : List (String × Attr)} :
    tagValues? (e :: es) = some tags ↔
      ∃ v new, e.2.value? = some v ∧ tagValues? es = some new ∧ tags = (e.1, v) :: new := by
  simp only [tagValues?, Option.bind_eq_some_iff, Option.map_eq_some_iff]
  constructor
  · rintro ⟨v, hv, us, hu, rfl⟩; exact ⟨v, us, hv, hu, rfl⟩
  · rintro ⟨v, us, hv, hu, rfl⟩; exact ⟨v, hv, us, hu, rfl⟩

def bracedWords : Option (List (String × LiteralSyntax)) → List Word
  | none => []
  | some es => .mark .openBrace :: (listed (es.map tagWords) ++ [.mark .closeBrace])

theorem nextKind_of_literal {w : LiteralSyntax} {ts rest : List Token} (h : Splits w.words ts rest) :
    Parser.nextKind ts ∈ LiteralSyntax.starts := by
  cases w <;> rw [h.nextKind_eq rfl] <;> simp [LiteralSyntax.starts]

namespace Parser

open LiteralSyntax

variable {s t : ParserState} {a : Attr} {x : Token} {ts : List Token}

/-! ## Literals of a single token -/

theorem yields_literalWithin_int {fuel : Nat} (hr : s.rest = x :: ts) (hk : x.kind = .int) :
    Yields (literalWithin (fuel + 1)) s a t ↔ (intLiteral? x.text).map .int = some a ∧ t = s.facing ts := by
  unfold literalWithin
  rw [yields_peek_bind, ahead_of_rest hr]
  simp only [hk]
  rw [yields_advance_bind, hr]
  simp only [yields_bind, yields_integerOf, yields_pure, Option.map_eq_some_iff, List.drop_one, List.tail_cons]
  constructor
  · rintro ⟨n, u, ⟨hn, rfl⟩, rfl, rfl⟩; exact ⟨⟨n, hn, rfl⟩, rfl⟩
  · rintro ⟨⟨n, hn, rfl⟩, rfl⟩; exact ⟨n, _, ⟨hn, rfl⟩, rfl, rfl⟩

theorem yields_literalWithin_float {fuel : Nat} (hr : s.rest = x :: ts) (hk : x.kind = .float) :
    Yields (literalWithin (fuel + 1)) s a t ↔ (floatLiteral? x.text).map .float = some a ∧ t = s.facing ts := by
  unfold literalWithin
  rw [yields_peek_bind, ahead_of_rest hr]
  simp only [hk]
  rw [yields_advance_bind, hr]
  simp only [yields_bind, yields_finiteFloat, yields_pure, Option.map_eq_some_iff, List.drop_one, List.tail_cons]
  constructor
  · rintro ⟨n, u, ⟨hn, rfl⟩, rfl, rfl⟩; exact ⟨⟨n, hn, rfl⟩, rfl⟩
  · rintro ⟨⟨n, hn, rfl⟩, rfl⟩; exact ⟨n, _, ⟨hn, rfl⟩, rfl, rfl⟩

theorem yields_literalWithin_string {fuel : Nat} (hr : s.rest = x :: ts) (hk : x.kind = .string) :
    Yields (literalWithin (fuel + 1)) s a t ↔ (Json.readString? x.text).map .str = some a ∧ t = s.facing ts := by
  unfold literalWithin
  rw [yields_peek_bind, ahead_of_rest hr]
  simp only [hk]
  rw [yields_advance_bind, hr]
  cases Json.readString? x.text with
  | none => simp
  | some q => simp [eq_comm]

theorem yields_literalWithin_symbol {fuel : Nat} (hr : s.rest = x :: ts) (hk : x.kind = .symbolName) :
    Yields (literalWithin (fuel + 1)) s a t ↔
      a = .symbol (.text (String.ofList (x.text.toList.drop 1))) ∧ t = s.facing ts := by
  unfold literalWithin
  rw [yields_peek_bind, ahead_of_rest hr]
  simp only [hk, symbol]
  simp only [yields_bind, yields_expect (k := .symbolName) (by decide), yields_pure, hr]
  constructor
  · rintro ⟨n, u, ⟨y, v, ⟨us, hc, -, rfl⟩, rfl, rfl⟩, rfl, rfl⟩; cases hc; exact ⟨rfl, rfl⟩
  · rintro ⟨rfl, rfl⟩; exact ⟨_, _, ⟨x, _, ⟨ts, rfl, hk, rfl⟩, rfl, rfl⟩, rfl, rfl⟩

theorem yields_literalWithin_word {fuel : Nat} (hr : s.rest = x :: ts) (hk : x.kind = .word) :
    Yields (literalWithin (fuel + 1)) s a t ↔
      ∃ b, x.text = Attr.boolLiteral b ∧ a = .bool b ∧ t = s.facing ts := by
  unfold literalWithin
  rw [yields_peek_bind, ahead_of_rest hr]
  simp only [hk, yields_ite, yields_advance_bind, not_yields_fail, and_false, or_false, hr, yields_pure]
  constructor
  · rintro ⟨hb, rfl, rfl⟩
    rcases Bool.or_eq_true_iff.mp hb with h | h
    · have hx : x.text = "true" := by simpa using h
      exact ⟨true, hx, by simp [hx], rfl⟩
    · have hx : x.text = "false" := by simpa using h
      exact ⟨false, hx, by simp [hx], rfl⟩
  · rintro ⟨b, hx, rfl, rfl⟩
    cases b <;> simp [hx, Attr.boolLiteral]

theorem not_yields_literalWithin {fuel : Nat} (h : nextKind s.rest ∉ starts) :
    ¬ Yields (literalWithin (fuel + 1)) s a t := by
  unfold literalWithin
  rw [yields_peek_bind]
  rw [← kind_ahead_zero] at h
  generalize hk : (s.ahead 0).kind = k at h
  cases k <;> simp_all [starts]

/-! ## All literals -/

section
variable {fuel : Nat}
  (one : ∀ {u v : ParserState} {b : Attr}, u.rest.length ≤ fuel → (Yields (literalWithin fuel) u b v ↔
    ∃ w rest, Splits (words w) u.rest rest ∧ w.value? = some b ∧ v = u.facing rest))
  (more : ∀ {u v : ParserState} {bs : List Attr}, u.rest.length ≤ fuel → (Yields (literalsWithin fuel) u bs v ↔
    ∃ ws rest, Splits ((itemWords ws).flatMap (.mark .comma :: ·)) u.rest rest ∧ values? ws = some bs ∧
      nextKind rest ≠ .comma ∧ v = u.facing rest))
include one more

theorem yields_literalWithin_list (hr : s.rest = x :: ts) (hk : x.kind = .openBracket) (hf : ts.length ≤ fuel) :
    Yields (literalWithin (fuel + 1)) s a t ↔
      ∃ items rest, Splits (listed (itemWords items) ++ [.mark .closeBracket]) ts rest ∧
        (values? items).map .tuple = some a ∧ t = s.facing rest := by
  unfold literalWithin
  rw [yields_peek_bind, ahead_of_rest hr]
  simp only [hk, yields_advance_bind, hr, List.drop_one, List.tail_cons,
    yields_ifMark (k := .closeBracket) rfl (by decide), ParserState.rest_facing, ParserState.facing_facing]
  rw [yields_bind]
  constructor
  · rintro (⟨us, hc, h⟩ | ⟨-, b, u, hb, h⟩)
    · rw [yields_pure] at h
      obtain ⟨rfl, rfl⟩ := h
      exact ⟨[], us, hc, rfl, rfl⟩
    · obtain ⟨w, us, hw, hv, rfl⟩ := (one hf).mp hb
      obtain ⟨bs, v, hbs, h⟩ := yields_bind.mp h
      obtain ⟨ws, vs, hws, hvs, -, rfl⟩ := (more (Nat.le_trans hw.sublist.length_le hf)).mp hbs
      obtain ⟨xs, hx, h⟩ := (yields_mark rfl (by decide)).mp h
      obtain ⟨rfl, rfl⟩ := yields_pure.mp h
      refine ⟨w :: ws, xs, (hw.append hws).append hx, ?_, rfl⟩
      rw [values?_cons_iff.mpr ⟨b, bs, hv, hvs, rfl⟩]; rfl
  · rintro ⟨items, rest, hs, ha, rfl⟩
    cases items with
    | nil => cases ha; exact .inl ⟨rest, hs, yields_pure.mpr ⟨rfl, rfl⟩⟩
    | cons w ws =>
      obtain ⟨vs, hvs, rfl⟩ := Option.map_eq_some_iff.mp ha
      obtain ⟨b, bs, hb, hbs, rfl⟩ := values?_cons_iff.mp hvs
      obtain ⟨ys, hs, hx⟩ := Splits.append_iff.mp hs
      obtain ⟨us, hw, hws⟩ := Splits.append_iff.mp hs
      refine .inr ⟨?_, b, s.facing us, (one hf).mpr ⟨w, us, hw, hb, rfl⟩, ?_⟩
      · intro he
        have := nextKind_of_literal hw
        rw [he] at this
        simp [starts] at this
      · refine yields_bind.mpr ⟨bs, s.facing ys, (more (Nat.le_trans hw.sublist.length_le hf)).mpr
          ⟨ws, ys, hws, hbs, ?_, rfl⟩, ?_⟩
        · rw [hx.nextKind_eq rfl]; exact nofun
        · exact (yields_mark rfl (by decide)).mpr ⟨rest, hx, yields_pure.mpr ⟨rfl, rfl⟩⟩

theorem yields_literalsWithin_succ {as : List Attr} (hf : s.rest.length ≤ fuel + 1) :
    Yields (literalsWithin (fuel + 1)) s as t ↔
      ∃ ws rest, Splits ((itemWords ws).flatMap (.mark .comma :: ·)) s.rest rest ∧ values? ws = some as ∧
        nextKind rest ≠ .comma ∧ t = s.facing rest := by
  simp only [literalsWithin, yields_unlessMark (k := .comma) rfl (by decide), yields_pure]
  constructor
  · rintro (⟨us, hc, h⟩ | ⟨hn, rfl, rfl⟩)
    · have hlen : us.length ≤ fuel := hc.rest_le (List.cons_ne_nil _ _) hf
      obtain ⟨b, u, hb, h⟩ := yields_bind.mp h
      obtain ⟨w, vs, hw, hv, rfl⟩ := (one hlen).mp hb
      obtain ⟨bs, v, hbs, h⟩ := yields_bind.mp h
      obtain ⟨ws, rest, hws, hvs, hn, rfl⟩ := (more (Nat.le_trans hw.sublist.length_le hlen)).mp hbs
      obtain ⟨rfl, rfl⟩ := yields_pure.mp h
      exact ⟨w :: ws, rest, hc.append (hw.append hws), values?_cons_iff.mpr ⟨b, bs, hv, hvs, rfl⟩, hn, rfl⟩
    · exact ⟨[], t.rest, Splits.nil_iff.mpr rfl, rfl, hn, rfl⟩
  · rintro ⟨ws, rest, hs, ha, hn, rfl⟩
    cases ws with
    | nil =>
      cases ha
      obtain rfl := Splits.nil_iff.mp hs
      exact .inr ⟨hn, rfl, rfl⟩
    | cons w ws =>
      obtain ⟨b, bs, hb, hbs, rfl⟩ := values?_cons_iff.mp ha
      obtain ⟨us, hc, hs⟩ := Splits.first_iff.mp hs
      obtain ⟨vs, hw, hws⟩ := Splits.append_iff.mp hs
      have hlen : us.length ≤ fuel := hc.rest_le (List.cons_ne_nil _ _) hf
      refine .inl ⟨us, hc, yields_bind.mpr ⟨b, s.facing vs, (one hlen).mpr ⟨w, vs, hw, hb, rfl⟩, ?_⟩⟩
      exact yields_bind.mpr ⟨bs, s.facing rest, (more (Nat.le_trans hw.sublist.length_le hlen)).mpr
        ⟨ws, rest, hws, hbs, hn, rfl⟩, yields_pure.mpr ⟨rfl, rfl⟩⟩

variable (hr : s.rest = x :: ts) (hf : ts.length ≤ fuel)
include hr hf

theorem written_of_yields_literalWithin (h : Yields (literalWithin (fuel + 1)) s a t) :
    ∃ w rest, Splits (words w) (x :: ts) rest ∧ w.value? = some a ∧ t = s.facing rest := by
  have single : ∀ {k : TokenKind}, k.isVaried = true → x.kind = k → Splits [⟨k, x.text⟩] (x :: ts) ts := by
    rintro k hv rfl
    exact (Splits.varied_cons_iff hv).mpr ⟨⟨rfl, rfl⟩, Splits.nil_iff.mpr rfl⟩
  have hs : x.kind ∈ starts := Decidable.byContradiction fun hs => not_yields_literalWithin (by rw [hr]; exact hs) h
  simp only [starts, List.mem_cons, List.not_mem_nil, or_false] at hs
  rcases hs with hk | hk | hk | hk | hk | hk
  · obtain ⟨ha, rfl⟩ := (yields_literalWithin_int hr hk).mp h
    exact ⟨.int x.text, ts, single rfl hk, ha, rfl⟩
  · obtain ⟨ha, rfl⟩ := (yields_literalWithin_float hr hk).mp h
    exact ⟨.float x.text, ts, single rfl hk, ha, rfl⟩
  · obtain ⟨ha, rfl⟩ := (yields_literalWithin_string hr hk).mp h
    exact ⟨.str x.text, ts, single rfl hk, ha, rfl⟩
  · obtain ⟨rfl, rfl⟩ := (yields_literalWithin_symbol hr hk).mp h
    exact ⟨.symbol x.text, ts, single rfl hk, rfl, rfl⟩
  · obtain ⟨items, rest, hi, ha, rfl⟩ := (yields_literalWithin_list one more hr hk hf).mp h
    exact ⟨.list items, rest, Splits.cons_cons_iff.mpr ⟨(Token.word_eq_mark_iff rfl).mpr hk, hi⟩, ha, rfl⟩
  · obtain ⟨b, hb, rfl, rfl⟩ := (yields_literalWithin_word hr hk).mp h
    exact ⟨.bool b, ts, by rw [words, ← hb]; exact single rfl hk, rfl, rfl⟩

theorem yields_literalWithin_of_written {w : LiteralSyntax} {rest : List Token} (hs : Splits (words w) (x :: ts) rest)
    (ha : w.value? = some a) : Yields (literalWithin (fuel + 1)) s a (s.facing rest) := by
  have first : ∀ {k : TokenKind} {d : String}, k.isVaried = true → words w = [⟨k, d⟩] →
      (x.kind = k ∧ x.text = d) ∧ ts = rest := by
    intro k d hk hw
    rwa [hw, Splits.varied_cons_iff hk, Splits.nil_iff] at hs
  cases w with
  | int d =>
    obtain ⟨⟨hk, rfl⟩, rfl⟩ := first rfl rfl
    exact (yields_literalWithin_int hr hk).mpr ⟨ha, rfl⟩
  | float d =>
    obtain ⟨⟨hk, rfl⟩, rfl⟩ := first rfl rfl
    exact (yields_literalWithin_float hr hk).mpr ⟨ha, rfl⟩
  | str q =>
    obtain ⟨⟨hk, rfl⟩, rfl⟩ := first rfl rfl
    exact (yields_literalWithin_string hr hk).mpr ⟨ha, rfl⟩
  | symbol n =>
    obtain ⟨⟨hk, rfl⟩, rfl⟩ := first rfl rfl
    exact (yields_literalWithin_symbol hr hk).mpr ⟨(Option.some.inj ha).symm, rfl⟩
  | bool b =>
    obtain ⟨⟨hk, hb⟩, rfl⟩ := first rfl rfl
    exact (yields_literalWithin_word hr hk).mpr ⟨b, hb, (Option.some.inj ha).symm, rfl⟩
  | list items =>
    obtain ⟨hk, hi⟩ := Splits.cons_cons_iff.mp hs
    exact (yields_literalWithin_list one more hr ((Token.word_eq_mark_iff rfl).mp hk) hf).mpr
      ⟨items, rest, hi, ha, rfl⟩

end

theorem yields_literals (fuel : Nat) :
    (∀ {s t : ParserState} {a : Attr}, s.rest.length ≤ fuel → (Yields (literalWithin fuel) s a t ↔
      ∃ w rest, Splits (words w) s.rest rest ∧ w.value? = some a ∧ t = s.facing rest)) ∧
    (∀ {s t : ParserState} {as : List Attr}, s.rest.length ≤ fuel → (Yields (literalsWithin fuel) s as t ↔
      ∃ ws rest, Splits ((itemWords ws).flatMap (.mark .comma :: ·)) s.rest rest ∧ values? ws = some as ∧
        nextKind rest ≠ .comma ∧ t = s.facing rest)) := by
  -- a list calls the parser of literals and that of further items, both with less fuel
  induction fuel with
  | zero =>
    refine ⟨?_, ?_⟩
    · intro s t a h
      constructor
      · intro hy
        simp [literalWithin] at hy
      · rintro ⟨w, rest, hs, -⟩
        exact absurd (List.length_eq_zero_iff.mp (Nat.le_zero.mp h)) (hs.ne_nil w.words_ne_nil)
    · intro s t as h
      have hr : s.rest = [] := List.length_eq_zero_iff.mp (by omega)
      rw [literalsWithin, yields_pure]
      constructor
      · rintro ⟨rfl, rfl⟩
        exact ⟨[], t.rest, Splits.nil_iff.mpr rfl, rfl, by rw [hr]; exact nofun, rfl⟩
      · rintro ⟨ws, rest, hs, hv, -, rfl⟩
        cases ws with
        | nil => cases hv; rw [← Splits.nil_iff.mp hs]; exact ⟨rfl, rfl⟩
        | cons w ws => exact absurd hr (hs.ne_nil (List.cons_ne_nil _ _))
  | succ fuel ih =>
    obtain ⟨one, more⟩ := ih
    refine ⟨?_, fun h => yields_literalsWithin_succ one more h⟩
    intro s t a h
    cases hr : s.rest with
    | nil =>
      constructor
      · intro hy
        exact absurd hy (not_yields_literalWithin (by simp [hr, starts]))
      · rintro ⟨w, rest, hs, -⟩
        exact absurd rfl (hs.ne_nil w.words_ne_nil)
    | cons x ts =>
      have hf : ts.length ≤ fuel := by rw [hr, List.length_cons] at h; omega
      constructor
      · exact written_of_yields_literalWithin one more hr hf
      · rintro ⟨w, rest, hs, ha, rfl⟩
        exact yields_literalWithin_of_written one more hr hf hs ha

/-- The parser of literals reads exactly the written literals. -/
theorem yields_literal :
    Yields literal s a t ↔ ∃ w rest, Splits (words w) s.rest rest ∧ w.value? = some a ∧ t = s.facing rest := by
  unfold literal
  rw [yields_get_bind, (yields_literals _).1 (Nat.le_refl _)]

theorem yields_tagEntries_succ {reserved : List String} {fuel : Nat} {x : Unit} :
    Yields (tagEntries reserved (fuel + 1)) s x t ↔
      ∃ e v us, Splits (tagWords e) s.rest us ∧ e.2.value? = some v ∧ e.1 ∉ reserved ∧
        e.1 ∉ s.tags.map (·.1) ∧
        ((∃ rest, Splits [.mark .comma] us rest ∧
            Yields (tagEntries reserved fuel) ((s.withTags (s.tags ++ [(e.1, v)])).facing rest) x t) ∨
          ∃ rest, Splits [.mark .closeBrace] us rest ∧ t = (s.withTags (s.tags ++ [(e.1, v)])).facing rest) := by
  simp only [tagEntries, yields_bind (p := expectAs .word "attribute name"), yields_expectAs (k := .word) (by decide),
    yields_ite, yields_get_bind, yields_bind (p := fail _ _), not_yields_fail, false_and, exists_false, and_false,
    false_or, yields_mark (k := .equal) rfl (by decide), yields_bind (p := literal), yields_literal,
    yields_modify_bind, yields_ifMark (k := .comma) rfl (by decide),
    yields_mark (k := .closeBrace) rfl (by decide), yields_pure]
  -- a tag with a new name is put behind the others
  have put_new : ∀ {k : String} {v : Attr} {rest : List Token}, k ∉ s.tags.map (·.1) →
      { s.facing rest with tags := Attr.put k v s.tags } = (s.withTags (s.tags ++ [(k, v)])).facing rest := by
    intro k v rest hk
    rw [Attr.put_of_not_mem hk]; rfl
  constructor
  · rintro ⟨y, u, ⟨ts, hr, hy, rfl⟩, hres, hfree, us, he, v, w, ⟨l, rest, hl, hv, rfl⟩, h⟩
    have fresh : y.text ∉ s.tags.map (·.1) := by
      rw [← Attr.lookup_eq_none_iff]; simpa using hfree
    refine ⟨(y.text, l), v, rest, ?_, hv, by simpa using hres, fresh, ?_⟩
    · exact Splits.cons_iff.mpr ⟨y, ts, hr, (Token.word_eq_iff rfl).mpr ⟨hy, rfl⟩, he.append hl⟩
    · rcases h with ⟨vs, hc, h⟩ | ⟨-, vs, hc, -, h⟩
      · refine .inl ⟨vs, hc, ?_⟩
        rw [← put_new fresh]; exact h
      · refine .inr ⟨vs, hc, ?_⟩
        rw [← put_new fresh]; exact h
  · rintro ⟨⟨k, l⟩, v, rest, hs, hv, hres, fresh, h⟩
    obtain ⟨y, ts, hr, hy, hs⟩ := Splits.cons_iff.mp hs
    obtain ⟨hk, rfl⟩ := (Token.word_eq_iff rfl).mp hy
    obtain ⟨us, he, hl⟩ := Splits.first_iff.mp hs
    refine ⟨y, _, ⟨ts, hr, hk, rfl⟩, by simpa using hres, ?_, us, he, v, _, ⟨l, rest, hl, hv, rfl⟩, ?_⟩
    · rw [← Attr.lookup_eq_none_iff] at fresh
      simpa using fresh
    · rcases h with ⟨vs, hc, h⟩ | ⟨vs, hc, rfl⟩
      · refine .inl ⟨vs, hc, ?_⟩
        rw [← put_new fresh] at h; exact h
      · refine .inr ⟨by rw [ParserState.rest_facing, hc.nextKind_eq rfl]; decide, vs, hc, trivial, ?_⟩
        rw [← put_new fresh]; rfl

theorem yields_tagEntries {reserved : List String} {x : Unit} (fuel : Nat) (h : s.rest.length ≤ fuel) :
    Yields (tagEntries reserved fuel) s x t ↔
      ∃ e es new rest, Splits (listed ((e :: es).map tagWords) ++ [.mark .closeBrace]) s.rest rest ∧
        tagValues? (e :: es) = some new ∧ Addable reserved s.tags new ∧
        t = (s.withTags (s.tags ++ new)).facing rest := by
  induction fuel generalizing s with
  | zero =>
    have hr : s.rest = [] := List.length_eq_zero_iff.mp (by omega)
    constructor
    · intro hy
      simp [tagEntries, yields_expectAs (k := .word) (by decide), hr] at hy
    · rintro ⟨e, es, new, rest, hs, -⟩
      exact absurd hr (hs.ne_nil (List.append_ne_nil_of_right_ne_nil _ (List.cons_ne_nil _ _)))
  | succ fuel ih =>
    rw [yields_tagEntries_succ]
    constructor
    · rintro ⟨e, v, us, hs, hv, hres, hfree, ⟨vs, hc, h'⟩ | ⟨rest, hc, rfl⟩⟩
      · have hlen : vs.length ≤ fuel :=
          (hs.append hc).rest_le (List.append_ne_nil_of_right_ne_nil _ (List.cons_ne_nil _ _)) h
        obtain ⟨e', es, new, rest, hr, hnew, hadd, rfl⟩ := (ih hlen).mp h'
        refine ⟨e, e' :: es, (e.1, v) :: new, rest, ?_, tagValues?_cons_iff.mpr ⟨v, new, hv, hnew, rfl⟩,
          addable_cons_iff.mpr ⟨⟨hres, hfree⟩, hadd⟩, ?_⟩
        · have := hs.append (hc.append hr)
          simpa [listed_cons] using this
        · simp [ParserState.withTags, ParserState.facing]
      · exact ⟨e, [], [(e.1, v)], rest, by simpa [listed_cons] using hs.append hc,
          tagValues?_cons_iff.mpr ⟨v, [], hv, rfl, rfl⟩,
          addable_cons_iff.mpr ⟨⟨hres, hfree⟩, Addable.nil⟩, rfl⟩
    · rintro ⟨e, es, new, rest, hs, hnew, hadd, rfl⟩
      obtain ⟨v, new', hv, hnew', rfl⟩ := tagValues?_cons_iff.mp hnew
      obtain ⟨⟨hres, hfree⟩, hadd'⟩ := addable_cons_iff.mp hadd
      cases es with
      | nil =>
        cases hnew'
        obtain ⟨us, hs, hc⟩ := Splits.append_iff.mp hs
        exact ⟨e, v, us, by simpa [listed_cons] using hs, hv, hres, hfree, .inr ⟨rest, hc, rfl⟩⟩
      | cons e' es =>
        have hsplit : Splits (tagWords e ++ ([Word.mark .comma] ++
            (listed ((e' :: es).map tagWords) ++ [.mark .closeBrace]))) s.rest rest := by
          simpa [listed_cons] using hs
        obtain ⟨us, hs, htail⟩ := Splits.append_iff.mp hsplit
        obtain ⟨vs, hc, htail⟩ := Splits.append_iff.mp htail
        have hlen : vs.length ≤ fuel :=
          (hs.append hc).rest_le (List.append_ne_nil_of_right_ne_nil _ (List.cons_ne_nil _ _)) h
        refine ⟨e, v, us, hs, hv, hres, hfree, .inl ⟨vs, hc, ?_⟩⟩
        refine (ih hlen).mpr ⟨e', es, new', rest, htail, hnew', hadd', ?_⟩
        simp [ParserState.withTags, ParserState.facing]

/-- The parser of tags reads exactly tags in braces whose names are free and different. -/
theorem yields_optionalTags {reserved : List String} {x : Unit} :
    Yields (optionalTags reserved) s x t ↔
      ∃ es new rest, Splits (bracedWords es) s.rest rest ∧ tagValues? (es.getD []) = some new ∧
        Addable reserved s.tags new ∧ (es = none → nextKind rest ≠ .openBrace) ∧
        t = (s.withTags (s.tags ++ new)).facing rest := by
  simp only [optionalTags, yields_unlessMark (k := .openBrace) rfl (by decide),
    yields_ifMark (k := .closeBrace) rfl (by decide), yields_get_bind, yields_pure]
  constructor
  · rintro (⟨us, ho, ⟨rest, hc, -, rfl⟩ | ⟨-, h⟩⟩ | ⟨hn, -, rfl⟩)
    · refine ⟨some [], [], rest, ho.append hc, rfl, Addable.nil, by simp, ?_⟩
      rw [List.append_nil]; rfl
    · obtain ⟨e, es, new, rest, hs, hnew, hadd, rfl⟩ := (yields_tagEntries _ (Nat.le_refl _)).mp h
      exact ⟨some (e :: es), new, rest, ho.append hs, hnew, hadd, by simp, rfl⟩
    · refine ⟨none, [], t.rest, Splits.nil_iff.mpr rfl, rfl, Addable.nil, fun _ => hn, ?_⟩
      rw [List.append_nil]; rfl
  · rintro ⟨es, new, rest, hs, hnew, hadd, hn, rfl⟩
    cases es with
    | none =>
      cases hnew
      obtain rfl := Splits.nil_iff.mp hs
      exact .inr ⟨hn rfl, trivial, by rw [List.append_nil]; rfl⟩
    | some es =>
      obtain ⟨us, ho, hs⟩ := Splits.first_iff.mp hs
      cases es with
      | nil =>
        cases hnew
        exact .inl ⟨us, ho, .inl ⟨rest, hs, trivial, by rw [List.append_nil]; rfl⟩⟩
      | cons e es =>
        refine .inl ⟨us, ho, .inr ⟨?_, (yields_tagEntries _ (Nat.le_refl _)).mpr
          ⟨e, es, new, rest, hs, hnew, hadd, rfl⟩⟩⟩
        rw [ParserState.rest_facing, hs.nextKind_eq rfl]
        exact show TokenKind.word ≠ .closeBrace by decide

end Parser

end GateAsm
