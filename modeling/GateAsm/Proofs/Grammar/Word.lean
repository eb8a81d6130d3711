import GateAsm.Proofs.Grammar.Yields

/-!
# Words

A word is a token without its position; the characters of a punctuation mark are fixed by its kind and
left out. The grammar of assembly text is a set of word sequences. `Splits ws ts rest` says that the
tokens `ts` start with the words `ws` and go on with `rest`.
-/

namespace GateAsm

def TokenKind.isVaried : TokenKind → Bool
  | valueName | symbolName | word | float | int | string => true
  | _ => false

structure Word where
  kind : TokenKind
  text : String
  deriving DecidableEq, Repr

def Word.mark (k : TokenKind) : Word := ⟨k, ""⟩

def Token.word (t : Token) : Word := ⟨t.kind, if t.kind.isVaried then t.text else ""⟩

@[simp]
theorem Token.kind_word (t : Token) : t.word.kind = t.kind := rfl

@[simp]
theorem Word.kind_mark (k : TokenKind) : (mark k).kind = k := rfl

theorem Token.word_eq_iff {t : Token} {k : TokenKind} {s : String} (hk : k.isVaried = true) :
    t.word = ⟨k, s⟩ ↔ t.kind = k ∧ t.text = s := by
  simp only [word, Word.mk.injEq]
  constructor
  · rintro ⟨rfl, h⟩; rw [if_pos hk] at h; exact ⟨rfl, h⟩
  · rintro ⟨rfl, h⟩; rw [if_pos hk]; exact ⟨rfl, h⟩

theorem Token.word_eq_mark_iff {t : Token} {k : TokenKind} (hk : k.isVaried = false) :
    t.word = .mark k ↔ t.kind = k := by
  simp only [word, Word.mark, Word.mk.injEq]
  constructor
  · exact fun h => h.1
  · rintro rfl; simp [hk]

/-- The tokens `ts` start with tokens that are the words `ws`; `rest` stands behind them. -/
def Splits (ws : List Word) (ts rest : List Token) : Prop :=
  ∃ used, ts = used ++ rest ∧ used.map Token.word = ws

namespace Splits

variable {ws vs : List Word} {w : Word} {ts rest : List Token}

@[simp]
theorem nil_iff : Splits [] ts rest ↔ ts = rest := by
  simp [Splits]

theorem cons_iff : Splits (w :: ws) ts rest ↔ ∃ t us, ts = t :: us ∧ t.word = w ∧ Splits ws us rest := by
  constructor
  · rintro ⟨used, rfl, h⟩
    obtain ⟨t, us, rfl, ht, hu⟩ := List.map_eq_cons_iff.mp h
    exact ⟨t, us ++ rest, rfl, ht, us, rfl, hu⟩
  · rintro ⟨t, us, rfl, ht, used, rfl, hu⟩
    exact ⟨t :: used, rfl, by simp [ht, hu]⟩

theorem cons_cons_iff {x : Token} : Splits (w :: ws) (x :: ts) rest ↔ x.word = w ∧ Splits ws ts rest := by
  rw [cons_iff]
  constructor
  · rintro ⟨t, us, h, hw, hs⟩; cases h; exact ⟨hw, hs⟩
  · rintro ⟨hw, hs⟩; exact ⟨x, ts, rfl, hw, hs⟩

theorem varied_cons_iff {x : Token} {k : TokenKind} {d : String} (hk : k.isVaried = true) :
    Splits (⟨k, d⟩ :: ws) (x :: ts) rest ↔ (x.kind = k ∧ x.text = d) ∧ Splits ws ts rest := by
  rw [cons_cons_iff, Token.word_eq_iff hk]

theorem append_iff : Splits (ws ++ vs) ts rest ↔ ∃ us, Splits ws ts us ∧ Splits vs us rest := by
  constructor
  · rintro ⟨used, rfl, h⟩
    obtain ⟨a, b, rfl, ha, hb⟩ := List.map_eq_append_iff.mp h
    exact ⟨b ++ rest, ⟨a, by simp, ha⟩, b, rfl, hb⟩
  · rintro ⟨us, ⟨a, rfl, ha⟩, b, rfl, hb⟩
    exact ⟨a ++ b, by simp, by simp [ha, hb]⟩

theorem first_iff : Splits (w :: ws) ts rest ↔ ∃ us, Splits [w] ts us ∧ Splits ws us rest :=
  @append_iff [w] ws ts rest

theorem append {us : List Token} (h : Splits ws ts us) (h' : Splits vs us rest) : Splits (ws ++ vs) ts rest :=
  append_iff.mpr ⟨us, h, h'⟩

theorem length_eq (h : Splits ws ts rest) : ts.length = ws.length + rest.length := by
  obtain ⟨used, rfl, rfl⟩ := h
  simp

theorem length_lt (h : Splits ws ts rest) (hw : ws ≠ []) : rest.length < ts.length := by
  have := h.length_eq
  have := List.length_pos_iff.mpr hw
  omega

theorem ne_nil (h : Splits ws ts rest) (hw : ws ≠ []) : ts ≠ [] :=
  List.length_pos_iff.mp (Nat.zero_lt_of_lt (h.length_lt hw))

theorem rest_le {fuel : Nat} (h : Splits ws ts rest) (hw : ws ≠ []) (hf : ts.length ≤ fuel + 1) : rest.length ≤ fuel :=
  Nat.le_of_lt_succ (Nat.lt_of_lt_of_le (h.length_lt hw) hf)

theorem sublist (h : Splits ws ts rest) : rest.Sublist ts := by
  obtain ⟨used, rfl, -⟩ := h
  exact List.sublist_append_right ..

theorem nextKind_eq (h : Splits ws ts rest) (hw : ws.head? = some w) : Parser.nextKind ts = w.kind := by
  cases ws with
  | nil => cases hw
  | cons v vs =>
    obtain rfl : v = w := by simpa using hw
    obtain ⟨t, us, rfl, rfl, -⟩ := cons_iff.mp h
    rfl

end Splits

def listed : List (List Word) → List Word
  | [] => []
  | ws :: wss => ws ++ wss.flatMap (.mark .comma :: ·)

@[simp]
theorem listed_nil : listed [] = [] := rfl

theorem listed_cons (ws : List Word) (wss : List (List Word)) :
    listed (ws :: wss) = ws ++ wss.flatMap (.mark .comma :: ·) := rfl

theorem mem_listed {w : Word} {ws : List Word} {wss : List (List Word)} (hws : ws ∈ wss) (hw : w ∈ ws) :
    w ∈ listed wss := by
  cases wss with
  | nil => cases hws
  | cons vs wss =>
    rw [listed_cons, List.mem_append]
    rcases List.mem_cons.mp hws with rfl | h
    · exact .inl hw
    · exact .inr (List.mem_flatMap.mpr ⟨ws, h, List.mem_cons_of_mem _ hw⟩)

theorem forall_listed {P : Word → Prop} {wss : List (List Word)} (hcomma : P (.mark .comma))
    (h : ∀ ws ∈ wss, ∀ w ∈ ws, P w) : ∀ w ∈ listed wss, P w := by
  intro w hw
  cases wss with
  | nil => cases hw
  | cons ws wss =>
    rw [listed_cons] at hw
    rcases List.mem_append.mp hw with hw | hw
    · exact h ws List.mem_cons_self w hw
    · obtain ⟨vs, hvs, hw⟩ := List.mem_flatMap.mp hw
      rcases List.mem_cons.mp hw with rfl | hw
      · exact hcomma
      · exact h vs (List.mem_cons_of_mem _ hvs) w hw

/-! ## Punctuation -/

namespace Parser

variable {α : Type} {k : TokenKind} {p q : Parser α} {s t : ParserState} {a : α}

theorem splits_mark_iff (hk : k.isVaried = false) {ts rest : List Token} :
    Splits [.mark k] ts rest ↔ ∃ x, ts = x :: rest ∧ x.kind = k := by
  rw [Splits.cons_iff]
  constructor
  · rintro ⟨x, us, rfl, hx, h⟩
    rw [Splits.nil_iff] at h
    exact ⟨x, by rw [h], (Token.word_eq_mark_iff hk).mp hx⟩
  · rintro ⟨x, rfl, hx⟩
    exact ⟨x, rest, rfl, (Token.word_eq_mark_iff hk).mpr hx, Splits.nil_iff.mpr rfl⟩

theorem yields_mark (hk : k.isVaried = false) (he : k ≠ .endOfText) :
    Yields (expect k >>= fun _ => p) s a t ↔
      ∃ ts, Splits [.mark k] s.rest ts ∧ Yields p (s.facing ts) a t := by
  simp only [yields_bind, yields_expect he, splits_mark_iff hk]
  constructor
  · rintro ⟨x, u, ⟨ts, hr, hx, rfl⟩, h⟩; exact ⟨ts, ⟨x, hr, hx⟩, h⟩
  · rintro ⟨ts, ⟨x, hr, hx⟩, h⟩; exact ⟨x, _, ⟨ts, hr, hx, rfl⟩, h⟩

theorem yields_unlessMark (hk : k.isVaried = false) (he : k ≠ .endOfText) :
    Yields (optional k >>= fun o => if o.isNone = true then p else q) s a t ↔
      (∃ ts, Splits [.mark k] s.rest ts ∧ Yields q (s.facing ts) a t) ∨
      (nextKind s.rest ≠ k ∧ Yields p s a t) := by
  simp only [yields_bind, yields_optional he, splits_mark_iff hk]
  constructor
  · rintro ⟨o, u, ⟨x, ts, hr, hx, rfl, rfl⟩ | ⟨hn, rfl, rfl⟩, h⟩
    · exact .inl ⟨ts, ⟨x, hr, hx⟩, h⟩
    · exact .inr ⟨hn, h⟩
  · rintro (⟨ts, ⟨x, hr, hx⟩, h⟩ | ⟨hn, h⟩)
    · exact ⟨some x, _, .inl ⟨x, ts, hr, hx, rfl, rfl⟩, h⟩
    · exact ⟨none, _, .inr ⟨hn, rfl, rfl⟩, h⟩

theorem yields_ifMark (hk : k.isVaried = false) (he : k ≠ .endOfText) :
    Yields (optional k >>= fun o => if o.isSome = true then p else q) s a t ↔
      (∃ ts, Splits [.mark k] s.rest ts ∧ Yields p (s.facing ts) a t) ∨
      (nextKind s.rest ≠ k ∧ Yields q s a t) := by
  have swap : (fun o : Option Token => if o.isSome = true then p else q) =
      fun o => if o.isNone = true then q else p := by
    funext o; cases o <;> rfl
  rw [swap, yields_unlessMark hk he]

end Parser

/-! ## Numbers -/

def intLiteral? (text : String) : Option Int :=
  let (negative, digits) := Floating.splitSign text.toList
  if maxIntegerDigits < digits.length then none else some (Json.signed negative digits)

def floatLiteral? (text : String) : Option Double := (Double.ofLiteral? text).filter Double.isFinite

namespace Parser

variable {s t : ParserState}

@[simp]
theorem yields_integerOf {x : Token} {n : Int} :
    Yields (integerOf x) s n t ↔ intLiteral? x.text = some n ∧ t = s := by
  unfold integerOf intLiteral?
  simp only [yields_ite, not_yields_throw, and_false, false_or, yields_pure]
  constructor
  · rintro ⟨h, rfl, rfl⟩; exact ⟨by rw [if_neg h], rfl⟩
  · rintro ⟨h, rfl⟩
    split at h
    · cases h
    · rename_i hl; exact ⟨hl, (Option.some.inj h).symm, rfl⟩

@[simp]
theorem yields_finiteFloat {x : Token} {d : Double} :
    Yields (finiteFloat x) s d t ↔ floatLiteral? x.text = some d ∧ t = s := by
  unfold finiteFloat floatLiteral?
  cases Double.ofLiteral? x.text with
  | none => simp
  | some y =>
    simp only [yields_ite, yields_pure, not_yields_fail, and_false, or_false, Option.filter_some]
    constructor
    · rintro ⟨h, rfl, rfl⟩; exact ⟨by rw [if_pos h], rfl⟩
    · rintro ⟨h, rfl⟩
      split at h
      · rename_i hf; exact ⟨hf, (Option.some.inj h).symm, rfl⟩
      · cases h

end Parser

end GateAsm
