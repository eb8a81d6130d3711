import Mathlib.Order.CompletePartialOrder
import GateAsm.Proofs.Tokens.Partition

/-!
# Tokens with gaps between them

Blanks, slashes and quotes occur in no token but a string, and a string is told by its own quotes. So a token
ends where a gap starts, and texts of tokens with gaps between them are read as these tokens
(`TokenStream.ofText_spaced`).
-/

namespace GateAsm

open scoped Computability

/-! ## Characters that end a token -/

def startsGap (c : Char) : Bool := isTokenSpace c || c = '/'

def isTokenChar (c : Char) : Bool := !startsGap c && c != '"'

section
variable {l m s : Language Char} {p q : Char → Bool} {v : List Char}

theorem mul_le_star (hl : l ≤ s∗) (hm : m ≤ s∗) : l * m ≤ s∗ := (mul_le_mul' hl hm).trans_eq (kstar_mul_kstar s)

theorem add_le_star (hl : l ≤ s∗) (hm : m ≤ s∗) : l + m ≤ s∗ := by
  rw [add_eq_sup]
  exact sup_le hl hm

theorem star_le_star (hl : l ≤ s∗) : l∗ ≤ s∗ := (kstar_mono hl).trans_eq (kstar_idem s)

theorem oneChar_le_star (h : ∀ c, q c = true → p c = true) : oneChar q ≤ (oneChar p)∗ := by
  rintro w ⟨c, hc, rfl⟩
  exact mem_star_oneChar.mpr (by simpa using h c hc)

theorem text_le_star (h : v.all p = true) : ({v} : Language Char) ≤ (oneChar p)∗ := by
  rintro w rfl
  exact mem_star_oneChar.mpr (List.all_eq_true.mp h)

end

theorem isTokenChar_of_nameChar {c : Char} (h : isNameChar c = true) : isTokenChar c = true := by
  have other : ∀ {d : Char}, isNameChar d = false → c ≠ d := by
    rintro d hd rfl
    rw [h] at hd
    cases hd
  have blank := other (d := ' ') (by decide)
  have tab := other (d := '\t') (by decide)
  have feed := other (d := '\x0c') (by decide)
  have back := other (d := '\r') (by decide)
  have line := other (d := '\n') (by decide)
  have slash := other (d := '/') (by decide)
  have quote := other (d := '"') (by decide)
  simp [isTokenChar, startsGap, isTokenSpace, blank, tab, feed, back, line, slash, quote]

theorem isTokenChar_of_digit {c : Char} (h : c.isDigit = true) : isTokenChar c = true :=
  isTokenChar_of_nameChar (digit_nameChar h)

theorem TokenKind.language_le {k : TokenKind} (hk : k ≠ .string) : k.language ≤ (oneChar isTokenChar)∗ := by
  have name : oneChar isNameChar ≤ (oneChar isTokenChar)∗ := oneChar_le_star fun _ => isTokenChar_of_nameChar
  have start : oneChar isNameStart ≤ (oneChar isTokenChar)∗ :=
    oneChar_le_star fun _ h => isTokenChar_of_nameChar (nameStart_nameChar h)
  have digit : oneChar Char.isDigit ≤ (oneChar isTokenChar)∗ := oneChar_le_star fun _ => isTokenChar_of_digit
  have digits : digitsLanguage ≤ (oneChar isTokenChar)∗ := mul_le_star digit (star_le_star digit)
  have names : nameLanguage ≤ (oneChar isTokenChar)∗ := mul_le_star start (star_le_star name)
  have none : (1 : Language Char) ≤ (oneChar isTokenChar)∗ := one_le_kstar
  have minus : (1 + {['-']} : Language Char) ≤ (oneChar isTokenChar)∗ := add_le_star none (text_le_star rfl)
  have mark : oneChar (fun c => c = 'e' || c = 'E') ≤ (oneChar isTokenChar)∗ := by
    refine oneChar_le_star fun c h => ?_
    rcases (by simpa using h : c = 'e' ∨ c = 'E') with rfl | rfl <;> decide
  have sign : oneChar (fun c => c = '+' || c = '-') ≤ (oneChar isTokenChar)∗ := by
    refine oneChar_le_star fun c h => ?_
    rcases (by simpa using h : c = '+' ∨ c = '-') with rfl | rfl <;> decide
  have exponent : exponentLanguage ≤ (oneChar isTokenChar)∗ :=
    mul_le_star (mul_le_star mark (add_le_star none sign)) digits
  have decimals : decimalsLanguage ≤ (oneChar isTokenChar)∗ :=
    add_le_star (mul_le_star digits (mul_le_star (mul_le_star (text_le_star rfl) (star_le_star digit))
      (add_le_star none exponent))) (mul_le_star digits exponent)
  cases k with
  | valueName => exact mul_le_star (text_le_star rfl) (mul_le_star name (star_le_star name))
  | symbolName => exact mul_le_star (text_le_star rfl) names
  | word => exact names
  | float => exact mul_le_star minus decimals
  | int => exact mul_le_star minus digits
  | string => exact absurd rfl hk
  | endOfText => exact bot_le
  | _ => exact text_le_star rfl

theorem isTokenChar_of_mem {k : TokenKind} {w : List Char} (hk : k ≠ .string) (h : w ∈ k.language) :
    ∀ c ∈ w, isTokenChar c = true :=
  mem_star_oneChar.mp (TokenKind.language_le hk h)

/-- Each token stands on one line. -/
theorem newline_notMem_of_mem_language {k : TokenKind} {w : List Char} (h : w ∈ k.language) : '\n' ∉ w := by
  intro hn
  by_cases hk : k = .string
  · subst hk
    have part : stringPartLanguage ≤ (oneChar (· != '\n'))∗ := by
      refine add_le_star (mul_le_star (text_le_star rfl) (oneChar_le_star fun _ h => h)) (oneChar_le_star fun c h => ?_)
      simp only [Bool.and_eq_true] at h
      exact h.2
    have whole : TokenKind.string.language ≤ (oneChar (· != '\n'))∗ :=
      mul_le_star (text_le_star rfl) (mul_le_star (star_le_star part) (text_le_star rfl))
    have := mem_star_oneChar.mp (whole h) '\n' hn
    exact absurd this (by decide)
  · exact absurd (isTokenChar_of_mem hk h '\n' hn) (by decide)

namespace Lexeme

theorem at?_of_gap {k : TokenKind} {c : Char} {w rest : List Char} (h : c :: w ∈ k.language)
    (hr : ∀ d ∈ rest.head?, startsGap d = true) : at? c (w ++ rest) = some ⟨k, w, rest⟩ := by
  by_cases hk : k = .string
  · subst hk
    obtain ⟨rfl, hw⟩ := cons_mem_text_mul.mp h
    exact at?_quote hw rest
  obtain ⟨found, hfound, hlen, hkind⟩ := at?_longest h rest
  obtain ⟨happ, hmem⟩ := at?_sound hfound
  obtain ⟨v, hv, hrest⟩ : ∃ v, found.tail = w ++ v ∧ rest = v ++ found.rest := by
    rcases List.append_eq_append_iff.mp happ with ⟨v, hw, hrest⟩ | ⟨v, htail, hrest⟩
    · rw [hw, List.length_append] at hlen
      obtain rfl := List.length_eq_zero_iff.mp (by omega : v.length = 0)
      exact ⟨[], by rw [hw, List.append_nil, List.append_nil], hrest.symm⟩
    · exact ⟨v, htail, hrest⟩
  cases v with
  | nil =>
    have same : found.kind = k := hkind (by rw [hv, List.append_nil])
    rw [hfound, hrest, ← same, ← List.append_nil w, ← hv]
    rfl
  | cons d v =>
    -- the first character is no quote, so that what is found is no string and goes on with no gap
    have notString : found.kind ≠ .string := by
      intro hs
      rw [hs] at hmem
      obtain ⟨rfl, -⟩ := cons_mem_text_mul.mp hmem
      exact absurd (isTokenChar_of_mem hk h '"' List.mem_cons_self) (by decide)
    have inside : isTokenChar d = true := by
      refine isTokenChar_of_mem notString hmem d ?_
      rw [hv]
      simp
    have gap : startsGap d = true := hr d (by rw [hrest]; rfl)
    simp [isTokenChar, gap] at inside

end Lexeme

/-! ## Gaps -/

def gapLanguage : Language Char := oneChar isTokenSpace + {['/', '/']} * ((oneChar (· != '\n'))∗ * {['\n']})

def separatorLanguage : Language Char := gapLanguage * gapLanguage∗

section
variable {g rest : List Char} {ws : List Word}

theorem mem_gapLanguage : g ∈ gapLanguage ↔
    (∃ c, isTokenSpace c = true ∧ g = [c]) ∨ ∃ body, '\n' ∉ body ∧ g = '/' :: '/' :: (body ++ ['\n']) := by
  refine or_congr_right (mem_text_mul.trans ?_)
  constructor
  · rintro ⟨v, hv, rfl⟩
    obtain ⟨body, hbody, _, rfl, rfl⟩ := Language.mem_mul.mp hv
    exact ⟨body, fun hn => absurd (mem_star_oneChar.mp hbody _ hn) (by decide), rfl⟩
  · rintro ⟨body, hbody, rfl⟩
    refine ⟨_, Language.mem_mul.mpr ⟨body, mem_star_oneChar.mpr fun c hc => ?_, ['\n'], rfl, rfl⟩, rfl⟩
    simpa using fun h : c = '\n' => hbody (h ▸ hc)

theorem head?_of_mem_gapLanguage (h : g ∈ gapLanguage) : ∃ c cs, g = c :: cs ∧ startsGap c = true := by
  rcases mem_gapLanguage.mp h with ⟨c, hc, rfl⟩ | ⟨body, -, rfl⟩
  · exact ⟨c, [], rfl, by simp [startsGap, hc]⟩
  · exact ⟨'/', _, rfl, rfl⟩

theorem Lexes.behind_gap (h : g ∈ gapLanguage) (hl : Lexes rest ws) : Lexes (g ++ rest) ws := by
  rcases mem_gapLanguage.mp h with ⟨c, hc, rfl⟩ | ⟨body, hbody, rfl⟩
  · have blank : gapAt? c rest = some ([c], rest) := by simp [gapAt?, hc]
    exact .gap blank hl
  · have inside : ∀ c ∈ body, (c != '\n') = true := fun c hc => by simpa using fun h : c = '\n' => hbody (h ▸ hc)
    obtain ⟨htake, hdrop⟩ := takeWhile_stops inside (c := '\n') (by decide) rest
    have comment : gapAt? '/' ('/' :: (body ++ '\n' :: rest)) = some ('/' :: '/' :: body, '\n' :: rest) := by
      have slash : isTokenSpace '/' = false := by decide
      unfold gapAt?
      rw [if_neg (by simp [slash]), if_pos rfl]
      simp only [htake, hdrop]
    have line : gapAt? '\n' rest = some (['\n'], rest) := rfl
    have := Lexes.gap comment (.gap line hl)
    simpa using this

theorem Lexes.behind_gaps (h : g ∈ gapLanguage∗) (hl : Lexes rest ws) : Lexes (g ++ rest) ws := by
  obtain ⟨gs, rfl, hgs⟩ := Language.mem_kstar.mp h
  clear h
  induction gs with
  | nil => exact hl
  | cons g gs ih =>
    obtain ⟨hg, hgs⟩ := List.forall_mem_cons.mp hgs
    rw [List.flatten_cons, List.append_assoc]
    exact .behind_gap hg (ih hgs)

theorem startsGap_of_mem_gaps (h : g ∈ gapLanguage∗) : ∀ d ∈ g.head?, startsGap d = true := by
  obtain ⟨gs, rfl, hgs⟩ := Language.mem_kstar.mp h
  cases gs with
  | nil => nofun
  | cons g gs =>
    obtain ⟨c, cs, rfl, hc⟩ := head?_of_mem_gapLanguage (hgs g List.mem_cons_self)
    rintro d ⟨⟩
    exact hc

theorem stops_of_lexes (h : Lexes rest ws) (hw : ∀ w ∈ ws.head?, w.kind.isVaried = false) : Stops rest := by
  cases h with
  | nil => exact .nil
  | @gap c cs _ _ _ hg =>
    have starts : startsGap c = true := by
      unfold gapAt? at hg
      split at hg
      · next hc => simp [startsGap, hc]
      split at hg
      · next hc => simp [startsGap, hc]
      · cases hg
    refine .cons (Bool.eq_false_iff.mpr fun hc => ?_)
    have := isTokenChar_of_nameChar hc
    simp [isTokenChar, starts] at this
  | @token c cs found _ _ hat =>
    have hmem := (Lexeme.at?_sound hat).2
    have hk : found.kind.isVaried = false := hw _ rfl
    refine .cons ?_
    cases hkind : found.kind with
    | endOfText => rw [hkind] at hmem; exact absurd hmem (Language.notMem_zero _)
    | valueName | symbolName | word | float | int | string => rw [hkind] at hk; cases hk
    | _ =>
      rw [hkind] at hmem
      obtain ⟨rfl, -⟩ := List.cons.inj (mem_singleton_language.mp hmem)
      decide

end

/-! ## Tokens and gaps in turn -/

def Token.spelling (t : Token) : TokenKind × String := (t.kind, t.text)

/-- The texts of tokens with gaps between them. -/
def spacedLanguage : List (TokenKind × String) → Language Char
  | [] => 1
  | [x] => {x.2.toList}
  | x :: y :: xs => {x.2.toList} * (separatorLanguage * spacedLanguage (y :: xs))

section
variable {k : TokenKind} {n : String} {rest u v : List Char} {ws : List Word} {xs : List (TokenKind × String)}

def spelledWord (x : TokenKind × String) : Word := (Token.mk x.1 x.2 .start).word

theorem Lexes.in_front (h : n.toList ∈ k.language) (hr : ∀ d ∈ rest.head?, startsGap d = true) (hl : Lexes rest ws) :
    Lexes (n.toList ++ rest) (spelledWord (k, n) :: ws) := by
  obtain ⟨c, cs, hn⟩ := List.exists_cons_of_ne_nil (ne_nil_of_mem_language h)
  rw [hn] at h ⊢
  have hat := Lexeme.at?_of_gap h hr
  have := Lexes.token (gapAt?_eq_none_of_at? hat _) hat hl
  have same : (Lexeme.token c ⟨k, cs, rest⟩ .start).word = spelledWord (k, n) := by
    rw [Lexeme.token, ← hn, String.ofList_toList]
    rfl
  rwa [same] at this

theorem lexes_of_mem_spacedLanguage (h : ∀ x ∈ xs, x.2.toList ∈ x.1.language) (hu : u ∈ spacedLanguage xs)
    (hv : v ∈ gapLanguage∗) : Lexes (u ++ v) (xs.map spelledWord) := by
  have last : Lexes v [] := by
    have := Lexes.behind_gaps hv .nil
    rwa [List.append_nil] at this
  induction xs generalizing u with
  | nil => rw [(Language.mem_one u).mp hu]; exact last
  | cons x xs ih =>
    obtain ⟨hx, hxs⟩ := List.forall_mem_cons.mp h
    cases xs with
    | nil =>
      rw [mem_singleton_language.mp hu]
      exact .in_front hx (startsGap_of_mem_gaps hv) last
    | cons y xs =>
      obtain ⟨w, hw, rfl⟩ := mem_text_mul.mp hu
      obtain ⟨g, hg, t, ht, rfl⟩ := Language.mem_mul.mp hw
      rw [List.append_assoc, List.append_assoc]
      have gaps : g ∈ gapLanguage∗ := (mul_kstar_le_kstar : separatorLanguage ≤ _) hg
      refine .in_front hx ?_ (.behind_gaps gaps (ih hxs ht))
      obtain ⟨a, ha, b, -, rfl⟩ := Language.mem_mul.mp hg
      obtain ⟨c, cs, rfl, hc⟩ := head?_of_mem_gapLanguage ha
      rintro d ⟨⟩
      exact hc

theorem eq_of_mem_language (hk : k.isVaried = false) (hu : u ∈ k.language) (hv : v ∈ k.language) : u = v := by
  cases k with
  | endOfText => exact absurd hu (Language.notMem_zero _)
  | valueName | symbolName | word | float | int | string => cases hk
  | _ => exact hu.trans hv.symm

theorem Token.spelling_of_word {t : Token} {x : TokenKind × String} (ht : t.text.toList ∈ t.kind.language)
    (hx : x.2.toList ∈ x.1.language) (h : t.word = spelledWord x) : t.spelling = x := by
  obtain ⟨k, n⟩ := x
  have hk : t.kind = k := congrArg Word.kind h
  subst hk
  refine congrArg (t.kind, ·) ?_
  cases varied : t.kind.isVaried with
  | true =>
    have word : spelledWord (t.kind, n) = ⟨t.kind, n⟩ := by simp [spelledWord, Token.word, varied]
    exact ((Token.word_eq_iff varied).mp (h.trans word)).2
  | false => exact String.toList_inj.mp (eq_of_mem_language varied ht hx)

end

theorem Token.spellings_of_words {ts : List Token} {xs : List (TokenKind × String)}
    (ht : ∀ t ∈ ts, t.text.toList ∈ t.kind.language) (hx : ∀ x ∈ xs, x.2.toList ∈ x.1.language)
    (h : ts.map Token.word = xs.map spelledWord) : ts.map Token.spelling = xs := by
  induction ts generalizing xs with
  | nil => exact (List.map_eq_nil_iff.mp h.symm).symm
  | cons t ts ih =>
    obtain ⟨x, ys, rfl, hword, hwords⟩ := List.map_eq_cons_iff.mp h.symm
    obtain ⟨htoken, hts⟩ := List.forall_mem_cons.mp ht
    obtain ⟨hspelled, hys⟩ := List.forall_mem_cons.mp hx
    rw [List.map_cons, Token.spelling_of_word htoken hspelled hword.symm, ih hts hys hwords.symm]

theorem Token.nextKind_of_spellings {ts us : List Token} (h : ts.map spelling = us.map spelling) :
    Parser.nextKind ts = Parser.nextKind us := by
  have := congrArg (fun xs => (xs.head?.map Prod.fst).getD .endOfText) h
  simpa [Parser.nextKind, Function.comp_def, spelling] using this

namespace TokenStream

theorem spelled {text : String} {s : TokenStream} (h : ofText text = .ok s) :
    ∀ t ∈ s.tokens, t.text.toList ∈ t.kind.language := by
  have : s.Partitions text.toList := by
    have := ofText_partitions text
    rwa [h] at this
  exact this.spelled

theorem spellings_of_lexes {text : String} {xs : List (TokenKind × String)}
    (h : ∀ x ∈ xs, x.2.toList ∈ x.1.language) (hl : Lexes text.toList (xs.map spelledWord)) :
    ∃ s, ofText text = .ok s ∧ s.tokens.map Token.spelling = xs := by
  obtain ⟨s, hs, hwords⟩ := ofText_of_lexes hl
  exact ⟨s, hs, Token.spellings_of_words (spelled hs) h hwords⟩

/-- In front of a text that is read, words that end there are read as well. -/
theorem ofText_in_front {text after : String} {ws : List Word} {sa : TokenStream} (ha : ofText after = .ok sa)
    (h : ∀ vs, Lexes after.toList vs → Lexes (text.toList ++ after.toList) (ws ++ vs)) :
    ∃ s rest, ofText (text ++ after) = .ok s ∧ Splits ws s.tokens rest ∧
      rest.map Token.spelling = sa.tokens.map Token.spelling := by
  have hl := h _ (lexes_of_ofText ha).1
  rw [← String.toList_append] at hl
  obtain ⟨s, hs, hwords⟩ := ofText_of_lexes hl
  obtain ⟨used, rest, hsplit, hused, hrest⟩ := List.map_eq_append_iff.mp hwords
  refine ⟨s, rest, hs, ⟨used, hsplit, hused⟩, Token.spellings_of_words (fun t ht => ?_) (fun x hx => ?_) ?_⟩
  · exact spelled hs t (by rw [hsplit]; exact List.mem_append_right _ ht)
  · obtain ⟨t, ht, rfl⟩ := List.mem_map.mp hx
    exact spelled ha t ht
  · rw [hrest, List.map_map]
    rfl

end TokenStream

/-- **Gaps do not matter**: a text of tokens with gaps between them, and in front and behind if need be, is read as
these tokens. So texts that differ only in their gaps have the same tokens. -/
theorem TokenStream.ofText_spaced {xs : List (TokenKind × String)} (h : ∀ x ∈ xs, x.2.toList ∈ x.1.language) :
    (∀ text : String, text.toList ∈ gapLanguage∗ * (spacedLanguage xs * gapLanguage∗) →
      ∃ s, ofText text = .ok s ∧ s.toList.map Token.spelling = xs ++ [(.endOfText, "")]) ∧
    ∀ text text' : String, text.toList ∈ gapLanguage∗ * (spacedLanguage xs * gapLanguage∗) →
      text'.toList ∈ gapLanguage∗ * (spacedLanguage xs * gapLanguage∗) →
      ∃ s s', ofText text = .ok s ∧ ofText text' = .ok s' ∧
        s.toList.map Token.spelling = s'.toList.map Token.spelling := by
  have read : ∀ text : String, text.toList ∈ gapLanguage∗ * (spacedLanguage xs * gapLanguage∗) →
      ∃ s, ofText text = .ok s ∧ s.toList.map Token.spelling = xs ++ [(.endOfText, "")] := by
    intro text ht
    obtain ⟨front, hfront, u, hu, htext⟩ := Language.mem_mul.mp ht
    obtain ⟨middle, hmiddle, back, hback, rfl⟩ := Language.mem_mul.mp hu
    obtain ⟨s, hs, hspell⟩ := spellings_of_lexes h
      (htext ▸ Lexes.behind_gaps hfront (lexes_of_mem_spacedLanguage h hmiddle hback))
    refine ⟨s, hs, ?_⟩
    rw [toList, List.map_append, hspell]
    rfl
  refine ⟨read, fun text text' ht ht' => ?_⟩
  obtain ⟨s, hs, hspell⟩ := read text ht
  obtain ⟨s', hs', hspell'⟩ := read text' ht'
  exact ⟨s, s', hs, hs', hspell.trans hspell'.symm⟩

/-- Signs of numbers in front of digits and arrows, and a string with a quote and the mark of a comment in it. -/
theorem TokenStream.ofText_spaced_signs :
    ∃ s s', ofText "-1.5e3 \"\\\"//\" -> -1" = .ok s ∧ ofText " -1.5e3//-\n\"\\\"//\"\n->\t-1\n" = .ok s' ∧
      s.toList.map Token.spelling = s'.toList.map Token.spelling := by
  have read : ∀ {k : TokenKind} {c : Char} {cs : List Char},
      Lexeme.at? c cs = some ⟨k, cs, []⟩ → c :: cs ∈ k.language :=
    fun h => (Lexeme.at?_sound h).2
  have spelled : ∀ x ∈ [(TokenKind.float, "-1.5e3"), (.string, "\"\\\"//\""), (.arrow, "->"), (.int, "-1")],
      x.2.toList ∈ x.1.language := by
    simp only [List.forall_mem_cons, List.not_mem_nil, false_implies, implies_true, and_true]
    exact ⟨read (by decide), read (by decide), read (by decide), read (by decide)⟩
  have gaps : ∀ {c : Char}, isTokenSpace c = true → [c] ∈ gapLanguage∗ := fun h =>
    Language.mem_kstar.mpr ⟨[[_]], rfl, List.forall_mem_singleton.mpr (mem_gapLanguage.mpr (.inl ⟨_, h, rfl⟩))⟩
  have blank : ∀ {c : Char}, isTokenSpace c = true → [c] ∈ separatorLanguage := fun h =>
    Language.mem_mul.mpr ⟨_, mem_gapLanguage.mpr (.inl ⟨_, h, rfl⟩), [], Language.nil_mem_kstar _, rfl⟩
  have comment : "//-\n".toList ∈ separatorLanguage :=
    Language.mem_mul.mpr ⟨_, mem_gapLanguage.mpr (.inr ⟨['-'], by decide, rfl⟩), [], Language.nil_mem_kstar _, rfl⟩
  have tokens : ∀ {f g h : List Char}, f ∈ separatorLanguage → g ∈ separatorLanguage → h ∈ separatorLanguage →
      "-1.5e3".toList ++ (f ++ ("\"\\\"//\"".toList ++ (g ++ ("->".toList ++ (h ++ "-1".toList))))) ∈
        spacedLanguage [(.float, "-1.5e3"), (.string, "\"\\\"//\""), (.arrow, "->"), (.int, "-1")] := fun hf hg hh =>
    Language.append_mem_mul rfl (Language.append_mem_mul hf (Language.append_mem_mul rfl (Language.append_mem_mul hg
      (Language.append_mem_mul rfl (Language.append_mem_mul hh rfl)))))
  refine (ofText_spaced spelled).2 _ _ ?_ ?_
  · exact Language.append_mem_mul (Language.nil_mem_kstar _)
      (Language.append_mem_mul (tokens (blank (c := ' ') rfl) (blank (c := ' ') rfl) (blank (c := ' ') rfl))
        (Language.nil_mem_kstar _))
  · exact Language.append_mem_mul (gaps (c := ' ') rfl)
      (Language.append_mem_mul (tokens comment (blank (c := '\n') rfl) (blank (c := '\t') rfl)) (gaps (c := '\n') rfl))

end GateAsm
