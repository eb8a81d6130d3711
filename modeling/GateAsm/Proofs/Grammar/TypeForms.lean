import Mathlib.Tactic.IntervalCases
import GateAsm.Proofs.Written.Types

/-!
# Types and what deviates from them

`Denotes` is the grammar of types with the standard keywords, word by word. Tokens that start with none of its
forms deviate from all of them at some point: `Deviates` says where and why, with one clause for each way to
deviate. There is no third case (`front_or_deviates`).
-/

namespace GateAsm

/-! ## The forms -/

/-- The words are the text of the type. -/
inductive Denotes : List Word → Ty → Prop
  | index : Denotes [⟨.word, "index"⟩] .index
  | float {n : Nat} : n = 16 ∨ n = 32 ∨ n = 64 → Denotes [⟨.word, "f" ++ toString n⟩] (.float (.ofNat n))
  | integer {n : Nat} : 1 ≤ n → n ≤ 64 → Denotes [⟨.word, "i" ++ toString n⟩] (.integer (.ofNat n))
  | qubit : Denotes [⟨.word, "qubit"⟩] .qubit
  | gate1 : Denotes [⟨.word, "gate1"⟩] .gate1
  | gate2 : Denotes [⟨.word, "gate2"⟩] .gate2
  | circuit : Denotes [⟨.word, "circuit"⟩] .circuit
  | unsized : Denotes [⟨.word, "register"⟩, .mark .less, .mark .more] (.register none)
  | sized {d : String} {n : Int} : intLiteral? d = some n → 1 < n →
      Denotes [⟨.word, "register"⟩, .mark .less, ⟨.int, d⟩, .mark .more] (.register (some n.toNat))
  | uncounted (b : GateBase) :
      Denotes [⟨.word, "cgate"⟩, .mark .less, ⟨.word, b.text⟩, .mark .more] (.controlled b none)
  | counted (b : GateBase) {d : String} {n : Int} : intLiteral? d = some n → 0 < n →
      Denotes [⟨.word, "cgate"⟩, .mark .less, ⟨.int, d⟩, .mark .comma, ⟨.word, b.text⟩, .mark .more]
        (.controlled b (some n.toNat))

theorem Denotes.base (b : GateBase) : Denotes [⟨.word, b.text⟩] b.ty := by
  cases b
  · exact .gate1
  · exact .gate2
  · exact .circuit

theorem Denotes.eq_of_base {ws : List Word} {b : GateBase} (h : Denotes ws b.ty) : ws = [⟨.word, b.text⟩] := by
  cases b
  · cases h; rfl
  · cases h; rfl
  · cases h; rfl

theorem Denotes.plain {ws : List Word} {u : Ty} (h : Denotes ws u) : u.plain = u := by cases h <;> rfl

def Denotes.Front (ts : List Token) (u : Ty) (rest : List Token) : Prop := ∃ ws, Splits ws ts rest ∧ Denotes ws u

/-! ## Faults -/

def TokenStream.first (all : TokenStream) (ts : List Token) : Token := ts.head?.getD all.endToken

open GateAsm.Parser (nextKind) in
/-- No type is read at the front of the tokens: the cause, and the tokens from the one on that is to blame. -/
inductive Deviates (all : TokenStream) : List Token → ParseCause → List Token → Prop
  | noWord {ts : List Token} : nextKind ts ≠ .word → Deviates all ts (.unexpectedToken "type" (all.first ts)) ts
  | unknown {w : String} {ts rest : List Token} : Splits [⟨.word, w⟩] ts rest → (∀ u, ¬ Denotes [⟨.word, w⟩] u) →
      w ∉ ["register", "cgate"] → Deviates all ts (.unknownType w) ts
  | notOpened {w : String} {ts rest : List Token} : Splits [⟨.word, w⟩] ts rest → w ∈ ["register", "cgate"] →
      nextKind rest ≠ .less → Deviates all ts (.malformedType w .shape) rest
  | registerOpen {size : Option String} {ts rest : List Token} :
      Splits (⟨.word, "register"⟩ :: .mark .less :: (size.map (Word.mk .int)).toList) ts rest →
      (size = none → nextKind rest ≠ .int) → nextKind rest ≠ .more →
      Deviates all ts (.malformedType "register" .shape) rest
  | registerSize {d : String} {n : Int} {ts us rest : List Token} :
      Splits [⟨.word, "register"⟩, .mark .less] ts us → Splits [⟨.int, d⟩, .mark .more] us rest →
      intLiteral? d = some n → n ≤ 1 → Deviates all ts (.malformedType "register" (.registerSize n)) us
  | noComma {d : String} {ts rest : List Token} :
      Splits [⟨.word, "cgate"⟩, .mark .less, ⟨.int, d⟩] ts rest → nextKind rest ≠ .comma →
      Deviates all ts (.malformedType "cgate" .shape) rest
  | noBase {count : Option String} {ts rest : List Token} :
      Splits (⟨.word, "cgate"⟩ :: .mark .less :: TypeSyntax.countWords count) ts rest →
      (count = none → nextKind rest ≠ .int) → nextKind rest ≠ .word →
      Deviates all ts (.malformedType "cgate" .shape) rest
  | inBase {count : Option String} {c : ParseCause} {ts us rest : List Token} :
      Splits (⟨.word, "cgate"⟩ :: .mark .less :: TypeSyntax.countWords count) ts us → nextKind us = .word →
      Deviates all us c rest → Deviates all ts c rest
  | cgateOpen {count : Option String} {u : Ty} {ts us rest : List Token} :
      Splits (⟨.word, "cgate"⟩ :: .mark .less :: TypeSyntax.countWords count) ts us → Denotes.Front us u rest →
      nextKind rest ≠ .more → Deviates all ts (.malformedType "cgate" .shape) rest
  | controlCount {d : String} {n : Int} {u : Ty} {ts us vs rest : List Token} :
      Splits [⟨.word, "cgate"⟩, .mark .less] ts us → Splits [⟨.int, d⟩, .mark .comma] us vs → Denotes.Front vs u rest →
      nextKind rest = .more → intLiteral? d = some n → n ≤ 0 →
      Deviates all ts (.malformedType "cgate" (.controlCount n)) us
  | invalidBase {count : Option String} {u : Ty} {ts us rest : List Token} :
      Splits (⟨.word, "cgate"⟩ :: .mark .less :: TypeSyntax.countWords count) ts us → Denotes.Front us u rest →
      nextKind rest = .more → (∀ d ∈ count, ∃ n, intLiteral? d = some n ∧ 0 < n) → u.base? = none →
      Deviates all ts (.invalidBase u) us

/-- The tokens are no type: there is none at their front, or more tokens behind it. -/
inductive NoType (all : TokenStream) : List Token → ParseCause → List Token → Prop
  | fault {c : ParseCause} {ts rest : List Token} : Deviates all ts c rest → NoType all ts c rest
  | more {u : Ty} {ts rest : List Token} : Denotes.Front ts u rest → rest ≠ [] →
      NoType all ts (.unexpectedToken "end of input" (all.first rest)) rest

/-- The cause with types as they are written; a context may keep one whose width is another kind of number. -/
def ParseCause.asWritten : ParseCause → ParseCause
  | .invalidBase u => .invalidBase u.plain
  | c => c

/-! ## Keywords -/

section
variable {r : Registry} {w : String} {u : Ty} {ws : List Word}

theorem digitChar_of_isDigit {d : Char} (hd : d.isDigit = true) :
    Nat.digitChar (d.toNat - 48) = d ∧ d.toNat - 48 < 10 := by
  simp only [Char.isDigit, Bool.and_eq_true, decide_eq_true_eq, UInt32.le_iff_toNat_le, ge_iff_le] at hd
  have low : 48 ≤ d.toNat := hd.1
  have high : d.toNat ≤ 57 := hd.2
  refine ⟨?_, by omega⟩
  rw [← Char.ofNat_toNat d]
  generalize d.toNat = n at low high
  interval_cases n <;> rfl

theorem toDigits_natOfDigits {d : Char} {ds : List Char} (hd : d.isDigit = true) (hzero : d ≠ '0')
    (hds : ∀ c ∈ ds, c.isDigit = true) (hlen : ds.length ≤ 1) :
    Nat.toDigits 10 (Floating.natOfDigits (d :: ds)) = d :: ds := by
  obtain ⟨hchar, hlt⟩ := digitChar_of_isDigit hd
  match ds, hlen with
  | [], _ =>
    show Nat.toDigits 10 (10 * 0 + (d.toNat - 48)) = _
    rw [Nat.mul_zero, Nat.zero_add, Nat.toDigits_of_lt_base hlt, hchar]
  | [e], _ =>
    obtain ⟨hchar', hlt'⟩ := digitChar_of_isDigit (hds e List.mem_cons_self)
    have hpos : 0 < d.toNat - 48 := Ty.natOfDigits_pos hd hzero []  |>.trans_eq (by simp [Floating.natOfDigits])
    show Nat.toDigits 10 (10 * (10 * 0 + (d.toNat - 48)) + (e.toNat - 48)) = _
    rw [Nat.mul_zero, Nat.zero_add, ← Nat.toDigits_append_toDigits (by decide) hpos hlt', Nat.toDigits_of_lt_base hlt,
      Nat.toDigits_of_lt_base hlt', hchar, hchar']
    rfl

theorem denotes_of_builtinType? (h : Parser.builtinType? w = some u) : Denotes [⟨.word, w⟩] u := by
  unfold Parser.builtinType? at h
  split at h
  · next hw => cases h; rw [hw]; exact .index
  split at h
  · next hw => cases h; rw [hw]; exact .float (n := 16) (.inl rfl)
  split at h
  · next hw => cases h; rw [hw]; exact .float (n := 32) (.inr (.inl rfl))
  split at h
  · next hw => cases h; rw [hw]; exact .float (n := 64) (.inr (.inr rfl))
  split at h
  · next d ds hw =>
    dsimp only at h
    split at h
    · next hc =>
      cases h
      simp only [Bool.and_eq_true, bne_iff_ne, decide_eq_true_eq, List.all_eq_true] at hc
      obtain ⟨⟨⟨⟨hd, hzero⟩, hlen⟩, hds⟩, hle⟩ := hc
      have hword : w = "i" ++ toString (Floating.natOfDigits (d :: ds)) := by
        rw [← String.toList_inj, hw, String.toList_append, Nat.toString_eq_repr, Nat.toList_repr,
          toDigits_natOfDigits hd hzero hds hlen]
        rfl
      rw [hword]
      exact .integer (Ty.natOfDigits_pos hd hzero ds) hle
    · cases h
  · cases h

theorem Registry.mem_of_keyword? {g : TypeGrammar} (h : r.keyword? w = some g) : (w, some g) ∈ r.keywords := by
  obtain ⟨⟨k, g'⟩, he, rfl⟩ := Option.bind_eq_some_iff.mp h
  obtain rfl : k = w := by simpa using List.find?_some he
  exact List.mem_of_find?_eq_some he

def TypeGrammar.keyword : TypeGrammar → String
  | qubit => "qubit"
  | register => "register"
  | gate1 => "gate1"
  | gate2 => "gate2"
  | cgate => "cgate"
  | circuit => "circuit"

theorem Registry.keyword?_standard {g : TypeGrammar} : standard.keyword? w = some g ↔ w = g.keyword := by
  constructor
  · intro h
    have own : ∀ e ∈ standard.keywords, e.2.map TypeGrammar.keyword = some e.1 := by decide
    exact (Option.some.inj (own _ (mem_of_keyword? h))).symm
  · rintro rfl
    cases g <;> rfl

variable (hr : r.keywords = Registry.standard.keywords)
include hr

theorem keyword?_iff {g : TypeGrammar} : r.keyword? w = some g ↔ w = g.keyword := by
  rw [← Registry.keyword?_standard, Registry.keyword?, Registry.keyword?, hr]

theorem introduces_iff {g : TypeGrammar} : TypeSyntax.Introduces r w g ↔ w = g.keyword := by
  rw [TypeSyntax.Introduces, keyword?_iff hr]
  constructor
  · rintro ⟨-, h⟩; exact h
  · rintro rfl; exact ⟨by cases g <;> decide, rfl⟩

theorem plainTy?_iff : TypeSyntax.plainTy? r w = some u ↔ Denotes [⟨.word, w⟩] u := by
  unfold TypeSyntax.plainTy?
  constructor
  · intro h
    split at h
    · next hb => cases h; exact denotes_of_builtinType? hb
    · split at h
      · next hk => cases h; rw [(keyword?_iff hr).mp hk]; exact .qubit
      · next hk => cases h; rw [(keyword?_iff hr).mp hk]; exact .gate1
      · next hk => cases h; rw [(keyword?_iff hr).mp hk]; exact .gate2
      · next hk => cases h; rw [(keyword?_iff hr).mp hk]; exact .circuit
      · cases h
  · intro h
    have word : ∀ g : TypeGrammar, Parser.builtinType? g.keyword = none ∧ r.keyword? g.keyword = some g := fun g =>
      (introduces_iff hr).mpr rfl
    cases h with
    | index => rfl
    | integer low high => rw [Ty.builtinType?_integer _ (Nat.lt_succ_of_le high) low]
    | float h => rcases h with rfl | rfl | rfl <;> rfl
    | qubit => rw [show "qubit" = TypeGrammar.qubit.keyword from rfl, (word _).1, (word _).2]
    | gate1 => rw [show "gate1" = TypeGrammar.gate1.keyword from rfl, (word _).1, (word _).2]
    | gate2 => rw [show "gate2" = TypeGrammar.gate2.keyword from rfl, (word _).1, (word _).2]
    | circuit => rw [show "circuit" = TypeGrammar.circuit.keyword from rfl, (word _).1, (word _).2]

/-- The grammar of the parser is that of `Denotes`, for any context and any kinds of instructions. -/
theorem denotes_iff : Denotes ws u ↔ ∃ w : TypeSyntax, w.words = ws ∧ w.ty? r = some u := by
  have register : TypeSyntax.Introduces r "register" .register := (introduces_iff hr).mpr rfl
  have cgate : TypeSyntax.Introduces r "cgate" .cgate := (introduces_iff hr).mpr rfl
  have base : ∀ b : GateBase, (TypeSyntax.plainTy? r b.text).bind Ty.base? = some b := fun b => by
    rw [(plainTy?_iff hr).mpr (Denotes.base b), Option.bind_some, Ty.base?_ty]
  constructor
  · intro h
    have plain : ∀ {k : String} {t : Ty}, Denotes [⟨.word, k⟩] t →
        ∃ w : TypeSyntax, w.words = [⟨.word, k⟩] ∧ w.ty? r = some t :=
      fun h => ⟨.plain _, rfl, (plainTy?_iff hr).mpr h⟩
    cases h with
    | unsized => exact ⟨.register "register" none, rfl, by rw [TypeSyntax.ty?, if_pos register]; rfl⟩
    | sized hd hn =>
      have above := TypeSyntax.numberAbove?_some_iff.mpr ⟨_, hd, hn, rfl⟩
      exact ⟨.register "register" (some _), rfl, by rw [TypeSyntax.ty?, if_pos register, above]; rfl⟩
    | uncounted b =>
      exact ⟨.controlled "cgate" none b.text, rfl, by rw [TypeSyntax.ty?, if_pos cgate, base b]; rfl⟩
    | counted b hd hn =>
      have above := TypeSyntax.numberAbove?_some_iff.mpr ⟨_, hd, hn, rfl⟩
      exact ⟨.controlled "cgate" (some _) b.text, rfl, by rw [TypeSyntax.ty?, if_pos cgate, base b, above]; rfl⟩
    | index => exact plain .index
    | float h => exact plain (.float h)
    | integer low high => exact plain (.integer low high)
    | qubit => exact plain .qubit
    | gate1 => exact plain .gate1
    | gate2 => exact plain .gate2
    | circuit => exact plain .circuit
  · rintro ⟨w, rfl, h⟩
    cases w with
    | plain w => exact (plainTy?_iff hr).mp h
    | register k size =>
      obtain ⟨hk, n, hn, rfl⟩ := TypeSyntax.ty?_register h
      obtain rfl := (introduces_iff hr).mp hk
      cases size with
      | none => cases hn; exact .unsized
      | some d =>
        obtain ⟨m, hd, hlow, rfl⟩ := TypeSyntax.numberAbove?_some_iff.mp hn
        exact .sized hd hlow
    | controlled k count b =>
      obtain ⟨hk, b', n, hb, hn, rfl⟩ := TypeSyntax.ty?_controlled h
      obtain rfl := (introduces_iff hr).mp hk
      obtain ⟨t, ht, hb⟩ := Option.bind_eq_some_iff.mp hb
      obtain rfl := Ty.base?_eq_some_iff.mp hb
      obtain rfl := (Word.mk.inj (List.cons.inj ((plainTy?_iff hr).mp ht).eq_of_base).1).2
      cases count with
      | none => cases hn; exact .uncounted b'
      | some d =>
        obtain ⟨m, hd, hlow, rfl⟩ := TypeSyntax.numberAbove?_some_iff.mp hn
        exact .counted b' hd hlow

end

/-! ## Each text is a type or deviates -/

open GateAsm.Parser (nextKind nextKind_cons)

section
variable {all : TokenStream} {ts rest : List Token} {u : Ty}

theorem Denotes.Front.nextKind_eq (h : Denotes.Front ts u rest) : nextKind ts = .word := by
  obtain ⟨ws, hs, hd⟩ := h
  cases hd <;> exact hs.nextKind_eq rfl

theorem exists_cons_of_nextKind {k : TokenKind} (h : nextKind ts = k) (hk : k ≠ .endOfText) :
    ∃ x us, ts = x :: us ∧ x.kind = k := by
  cases ts with
  | nil => exact absurd h.symm hk
  | cons x us => exact ⟨x, us, rfl, h⟩

theorem count_cases (ts : List Token) :
    (∃ d rest, Splits [⟨.int, d⟩] ts rest ∧ nextKind rest ≠ .comma) ∨
      ∃ count rest, Splits (TypeSyntax.countWords count) ts rest ∧ (count = none → nextKind rest ≠ .int) := by
  by_cases hint : nextKind ts = .int
  · obtain ⟨x, us, rfl, hx⟩ := exists_cons_of_nextKind hint (by decide)
    have hd : x.word = ⟨.int, x.text⟩ := (Token.word_eq_iff rfl).mpr ⟨hx, rfl⟩
    by_cases hcomma : nextKind us = .comma
    · obtain ⟨y, vs, rfl, hy⟩ := exists_cons_of_nextKind hcomma (by decide)
      exact .inr ⟨some x.text, vs, Splits.cons_cons_iff.mpr ⟨hd, (Parser.splits_mark_iff rfl).mpr ⟨y, rfl, hy⟩⟩, nofun⟩
    · exact .inl ⟨x.text, us, Splits.cons_cons_iff.mpr ⟨hd, Splits.nil_iff.mpr rfl⟩, hcomma⟩
  · exact .inr ⟨none, ts, Splits.nil_iff.mpr rfl, fun _ => hint⟩

def Legible (ts : List Token) : Prop := ∀ t ∈ ts, t.kind = .int → ∃ n, intLiteral? t.text = some n

theorem Legible.of_sublist (h : Legible ts) (hr : rest.Sublist ts) : Legible rest := fun t ht => h t (hr.subset ht)

theorem Legible.int {d : String} (h : Legible ts) {ws : List Word} (hs : Splits (⟨.int, d⟩ :: ws) ts rest) :
    ∃ n, intLiteral? d = some n := by
  obtain ⟨x, us, rfl, hx, -⟩ := Splits.cons_iff.mp hs
  obtain ⟨hk, rfl⟩ := (Token.word_eq_iff rfl).mp hx
  exact h x List.mem_cons_self hk

theorem register_cases (h : Legible ts) {x : Token} (hx : x.word = ⟨.word, "register"⟩) :
    (∃ u rest, Denotes.Front (x :: ts) u rest) ∨ ∃ c rest, Deviates all (x :: ts) c rest := by
  have keyword : Splits [⟨.word, "register"⟩] (x :: ts) ts := Splits.cons_cons_iff.mpr ⟨hx, Splits.nil_iff.mpr rfl⟩
  by_cases hless : nextKind ts = .less
  · obtain ⟨y, us, rfl, hy⟩ := exists_cons_of_nextKind hless (by decide)
    have opened : Splits [⟨.word, "register"⟩, .mark .less] (x :: y :: us) us :=
      keyword.append ((Parser.splits_mark_iff rfl).mpr ⟨y, rfl, hy⟩)
    by_cases hint : nextKind us = .int
    · obtain ⟨z, vs, rfl, hz⟩ := exists_cons_of_nextKind hint (by decide)
      have number : Splits [⟨.int, z.text⟩] (z :: vs) vs :=
        (Splits.varied_cons_iff rfl).mpr ⟨⟨hz, rfl⟩, Splits.nil_iff.mpr rfl⟩
      by_cases hmore : nextKind vs = .more
      · obtain ⟨m, ws, rfl, hm⟩ := exists_cons_of_nextKind hmore (by decide)
        have closed : Splits [⟨.int, z.text⟩, .mark .more] (z :: m :: ws) ws :=
          number.append ((Parser.splits_mark_iff rfl).mpr ⟨m, rfl, hm⟩)
        obtain ⟨n, hn⟩ := (h.of_sublist (List.sublist_cons_self ..)).int closed
        by_cases hlow : n ≤ 1
        · exact .inr ⟨_, _, .registerSize opened closed hn hlow⟩
        · exact .inl ⟨_, _, _, opened.append closed, .sized hn (by omega)⟩
      · exact .inr ⟨_, _, @Deviates.registerOpen _ (some z.text) _ _ (opened.append number) nofun hmore⟩
    · by_cases hmore : nextKind us = .more
      · obtain ⟨m, ws, rfl, hm⟩ := exists_cons_of_nextKind hmore (by decide)
        exact .inl ⟨_, _, _, opened.append ((Parser.splits_mark_iff rfl).mpr ⟨m, rfl, hm⟩), .unsized⟩
      · exact .inr ⟨_, _, @Deviates.registerOpen _ none _ _ opened (fun _ => hint) hmore⟩
  · exact .inr ⟨_, _, .notOpened keyword (by decide) hless⟩

theorem cgate_cases (h : Legible ts) {x : Token} (hx : x.word = ⟨.word, "cgate"⟩)
    (inner : ∀ us : List Token, us.Sublist ts →
      (∃ u rest, Denotes.Front us u rest) ∨ ∃ c rest, Deviates all us c rest) :
    (∃ u rest, Denotes.Front (x :: ts) u rest) ∨ ∃ c rest, Deviates all (x :: ts) c rest := by
  have keyword : Splits [⟨.word, "cgate"⟩] (x :: ts) ts := Splits.cons_cons_iff.mpr ⟨hx, Splits.nil_iff.mpr rfl⟩
  -- at each part either the next token is as it has to be, or there is the first deviation
  by_cases hless : nextKind ts = .less
  swap
  · exact .inr ⟨_, _, .notOpened keyword (by decide) hless⟩
  obtain ⟨y, us, rfl, hy⟩ := exists_cons_of_nextKind hless (by decide)
  have opened : Splits [⟨.word, "cgate"⟩, .mark .less] (x :: y :: us) us :=
    keyword.append ((Parser.splits_mark_iff rfl).mpr ⟨y, rfl, hy⟩)
  have left := h.of_sublist (List.sublist_cons_self ..)
  obtain ⟨d, vs, number, hcomma⟩ | ⟨count, vs, counted, hcount⟩ := count_cases us
  · exact .inr ⟨_, _, .noComma (opened.append number) hcomma⟩
  have behind : Splits (⟨.word, "cgate"⟩ :: .mark .less :: TypeSyntax.countWords count) (x :: y :: us) vs :=
    opened.append counted
  by_cases hword : nextKind vs = .word
  swap
  · exact .inr ⟨_, _, .noBase behind hcount hword⟩
  obtain ⟨u, ws, front⟩ | ⟨c, ws, deviates⟩ := inner vs (counted.sublist.trans (List.sublist_cons_self ..))
  swap
  · exact .inr ⟨_, _, .inBase behind hword deviates⟩
  by_cases hmore : nextKind ws = .more
  swap
  · exact .inr ⟨_, _, .cgateOpen behind front hmore⟩
  obtain ⟨m, rest, rfl, hm⟩ := exists_cons_of_nextKind hmore (by decide)
  have closed : Splits [.mark .more] (m :: rest) rest := (Parser.splits_mark_iff rfl).mpr ⟨m, rfl, hm⟩
  cases hbase : u.base? with
  | none =>
    cases count with
    | none => exact .inr ⟨_, _, .invalidBase behind front hmore nofun hbase⟩
    | some d =>
      obtain ⟨n, hn⟩ := left.int counted
      by_cases hlow : n ≤ 0
      · exact .inr ⟨_, _, .controlCount opened counted front hmore hn hlow⟩
      · refine .inr ⟨_, _, .invalidBase behind front hmore (fun d' hd => ?_) hbase⟩
        cases hd
        exact ⟨n, hn, by omega⟩
  | some b =>
    obtain rfl := Ty.base?_eq_some_iff.mp hbase
    obtain ⟨used, split, denotes⟩ := front
    rw [denotes.eq_of_base] at split
    cases count with
    | none => exact .inl ⟨_, _, _, behind.append (split.append closed), .uncounted b⟩
    | some d =>
      obtain ⟨n, hn⟩ := left.int counted
      by_cases hlow : n ≤ 0
      · exact .inr ⟨_, _, .controlCount opened counted ⟨_, split, .base b⟩ hmore hn hlow⟩
      · exact .inl ⟨_, _, _, behind.append (split.append closed), .counted b hn (by omega)⟩

/-- Tokens start with a type or deviate from all types. -/
theorem front_or_deviates (all : TokenStream) (h : Legible ts) :
    (∃ u rest, Denotes.Front ts u rest) ∨ ∃ c rest, Deviates all ts c rest := by
  induction hlen : ts.length using Nat.strongRecOn generalizing ts with
  | ind n ih =>
  by_cases hword : nextKind ts = .word
  swap
  · exact .inr ⟨_, _, .noWord hword⟩
  obtain ⟨x, us, rfl, hx⟩ := exists_cons_of_nextKind hword (by decide)
  have hw : x.word = ⟨.word, x.text⟩ := (Token.word_eq_iff rfl).mpr ⟨hx, rfl⟩
  have keyword : Splits [⟨.word, x.text⟩] (x :: us) us := Splits.cons_cons_iff.mpr ⟨hw, Splits.nil_iff.mpr rfl⟩
  have left := h.of_sublist (List.sublist_cons_self ..)
  by_cases hplain : ∃ u, Denotes [⟨.word, x.text⟩] u
  · obtain ⟨u, hu⟩ := hplain
    exact .inl ⟨u, us, _, keyword, hu⟩
  by_cases hregister : x.text = "register"
  · exact register_cases left (hregister ▸ hw)
  by_cases hcgate : x.text = "cgate"
  · refine cgate_cases left (hcgate ▸ hw) fun vs hvs => ih vs.length ?_ (left.of_sublist hvs) rfl
    have := hvs.length_le
    rw [List.length_cons] at hlen
    omega
  · refine .inr ⟨_, _, .unknown keyword (fun u hu => hplain ⟨u, hu⟩) ?_⟩
    simp [hregister, hcgate]

end

end GateAsm
