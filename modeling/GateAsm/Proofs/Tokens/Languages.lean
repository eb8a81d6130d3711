import Mathlib.Computability.Language
import GateAsm.Proofs.Lexing

/-!
# The languages of the tokens

Every kind of token is a regular language over the characters. The token that the lexer reads at the front
of a text is in the language of its kind (`Lexeme.at?_sound`), and no front of the text that is a token is
longer; one that is as long is of the same kind (`Lexeme.at?_longest`). With both, a token is found again in
a text that ends behind it.
-/

namespace GateAsm

open scoped Computability

def oneChar (p : Char → Bool) : Language Char := {w | ∃ c, p c = true ∧ w = [c]}

def nameLanguage : Language Char := oneChar isNameStart * (oneChar isNameChar)∗

def digitsLanguage : Language Char := oneChar Char.isDigit * (oneChar Char.isDigit)∗

def exponentLanguage : Language Char :=
  oneChar (fun c => c = 'e' || c = 'E') * (1 + oneChar (fun c => c = '+' || c = '-')) * digitsLanguage

def decimalsLanguage : Language Char :=
  digitsLanguage * ({['.']} * (oneChar Char.isDigit)∗ * (1 + exponentLanguage)) + digitsLanguage * exponentLanguage

def stringPartLanguage : Language Char :=
  {['\\']} * oneChar (· != '\n') + oneChar (fun c => c != '"' && c != '\\' && c != '\n')

/-- The texts of the tokens of a kind; the end of a text has none. -/
def TokenKind.language : TokenKind → Language Char
  | valueName => {['%']} * (oneChar isNameChar * (oneChar isNameChar)∗)
  | symbolName => {['@']} * nameLanguage
  | word => nameLanguage
  | float => (1 + {['-']}) * decimalsLanguage
  | int => (1 + {['-']}) * digitsLanguage
  | string => {['"']} * (stringPartLanguage∗ * {['"']})
  | arrow => {['-', '>']}
  | openParen => {['(']}
  | closeParen => {[')']}
  | openBracket => {['[']}
  | closeBracket => {[']']}
  | openBrace => {['\x7b']}
  | closeBrace => {['\x7d']}
  | less => {['<']}
  | more => {['>']}
  | comma => {[',']}
  | colon => {[':']}
  | equal => {['=']}
  | endOfText => 0

/-! ## Characters in a row -/

section
variable {p q : Char → Bool} {c : Char} {w cs ds rest : List Char}

theorem mem_singleton_language {v : List Char} : w ∈ ({v} : Language Char) ↔ w = v := Iff.rfl

theorem mem_star_oneChar : w ∈ (oneChar p)∗ ↔ ∀ c ∈ w, p c = true := by
  rw [Language.mem_kstar]
  constructor
  · rintro ⟨ws, rfl, hws⟩ c hc
    obtain ⟨v, hv, hc⟩ := List.mem_flatten.mp hc
    obtain ⟨d, hd, rfl⟩ := hws v hv
    rwa [List.mem_singleton.mp hc]
  · intro h
    refine ⟨w.map fun c => [c], (List.flatMap_singleton' w).symm, fun v hv => ?_⟩
    obtain ⟨c, hc, rfl⟩ := List.mem_map.mp hv
    exact ⟨c, h c hc, rfl⟩

theorem mem_oneChar_mul {l : Language Char} : w ∈ oneChar p * l ↔ ∃ c v, w = c :: v ∧ p c = true ∧ v ∈ l := by
  rw [Language.mem_mul]
  constructor
  · rintro ⟨_, ⟨c, hc, rfl⟩, v, hv, rfl⟩; exact ⟨c, v, rfl, hc, hv⟩
  · rintro ⟨c, v, rfl, hc, hv⟩; exact ⟨[c], ⟨c, hc, rfl⟩, v, hv, rfl⟩

theorem mem_text_mul {v : List Char} {l : Language Char} : w ∈ {v} * l ↔ ∃ u ∈ l, w = v ++ u := by
  rw [Language.mem_mul]
  constructor
  · rintro ⟨_, rfl, u, hu, rfl⟩; exact ⟨u, hu, rfl⟩
  · rintro ⟨u, hu, rfl⟩; exact ⟨v, rfl, u, hu, rfl⟩

theorem cons_mem_text_mul {d : Char} {l : Language Char} : c :: w ∈ {[d]} * l ↔ c = d ∧ w ∈ l := by
  rw [mem_text_mul]
  constructor
  · rintro ⟨u, hu, he⟩
    obtain ⟨rfl, rfl⟩ := List.cons.inj he
    exact ⟨rfl, hu⟩
  · rintro ⟨rfl, hw⟩; exact ⟨w, hw, rfl⟩

theorem cons_mem_oneChar_mul_star :
    c :: cs ∈ oneChar p * (oneChar q)∗ ↔ p c = true ∧ ∀ d ∈ cs, q d = true := by
  rw [mem_oneChar_mul]
  constructor
  · rintro ⟨_, _, he, hc, hcs⟩; cases he; exact ⟨hc, mem_star_oneChar.mp hcs⟩
  · rintro ⟨hc, hcs⟩; exact ⟨c, cs, rfl, hc, mem_star_oneChar.mpr hcs⟩

theorem mem_digitsLanguage : ds ∈ digitsLanguage ↔ ds ≠ [] ∧ ∀ c ∈ ds, c.isDigit = true := by
  cases ds with
  | nil =>
    constructor
    · intro h; obtain ⟨_, _, h, -⟩ := mem_oneChar_mul.mp h; cases h
    · rintro ⟨h, -⟩; exact absurd rfl h
  | cons d ds =>
    refine cons_mem_oneChar_mul_star.trans ?_
    rw [List.forall_mem_cons]
    exact ⟨fun h => ⟨List.cons_ne_nil _ _, h⟩, fun h => h.2⟩

theorem le_length_takeWhile (h : ∀ c ∈ cs, p c = true) (rest : List Char) :
    cs.length ≤ ((cs ++ rest).takeWhile p).length := by
  rw [List.takeWhile_append_of_pos h, List.length_append]
  exact Nat.le_add_right _ _

theorem takeWhile_stops (h : ∀ c ∈ cs, p c = true) (hc : p c = false) (rest : List Char) :
    (cs ++ c :: rest).takeWhile p = cs ∧ (cs ++ c :: rest).dropWhile p = c :: rest := by
  rw [List.takeWhile_append_of_pos h, List.dropWhile_append_of_pos h, List.takeWhile_cons_of_neg (by simp [hc]),
    List.dropWhile_cons_of_neg (by simp [hc])]
  exact ⟨List.append_nil cs, rfl⟩

end

/-! ## Exponents -/

section
variable {e rest : List Char}

theorem mem_exponentLanguage : e ∈ exponentLanguage ↔
    ∃ c s ds, e = c :: (s ++ ds) ∧ (c = 'e' ∨ c = 'E') ∧ (s = [] ∨ s = ['+'] ∨ s = ['-']) ∧ ds ∈ digitsLanguage := by
  have mark : ∀ s, s ∈ (1 + oneChar (fun c => c = '+' || c = '-') : Language Char) ↔
      s = [] ∨ s = ['+'] ∨ s = ['-'] := by
    intro s
    rw [Language.mem_add, Language.mem_one]
    refine or_congr_right ⟨?_, ?_⟩
    · rintro ⟨c, hc, rfl⟩
      rcases (by simpa using hc : c = '+' ∨ c = '-') with rfl | rfl
      · exact .inl rfl
      · exact .inr rfl
    · rintro (rfl | rfl)
      · exact ⟨_, rfl, rfl⟩
      · exact ⟨_, rfl, rfl⟩
  rw [exponentLanguage, mul_assoc, mem_oneChar_mul]
  constructor
  · rintro ⟨c, v, rfl, hc, hv⟩
    obtain ⟨s, hs, ds, hds, rfl⟩ := Language.mem_mul.mp hv
    exact ⟨c, s, ds, rfl, by simpa using hc, (mark s).mp hs, hds⟩
  · rintro ⟨c, s, ds, rfl, hc, hs, hds⟩
    exact ⟨c, s ++ ds, rfl, by simpa using hc, Language.mem_mul.mpr ⟨s, (mark s).mpr hs, ds, hds, rfl⟩⟩

theorem signPart_eq (cs : List Char) : (Floating.signPart cs).1 ++ (Floating.signPart cs).2 = cs ∧
    ((Floating.signPart cs).1 = [] ∨ (Floating.signPart cs).1 = ['+'] ∨ (Floating.signPart cs).1 = ['-']) := by
  unfold Floating.signPart
  split
  · exact ⟨rfl, .inr (.inl rfl)⟩
  · exact ⟨rfl, .inr (.inr rfl)⟩
  · exact ⟨rfl, .inl rfl⟩

theorem exponentPart_sound (cs : List Char) :
    (Floating.exponentPart cs).1 ++ (Floating.exponentPart cs).2 = cs ∧
      (Floating.exponentPart cs).1 ∈ 1 + exponentLanguage := by
  cases cs with
  | nil => exact ⟨rfl, .inl rfl⟩
  | cons c cs =>
    simp only [Floating.exponentPart]
    split
    · next hc =>
      split
      · exact ⟨rfl, .inl rfl⟩
      · next hds =>
        obtain ⟨happ, hsign⟩ := signPart_eq cs
        refine ⟨?_, .inr (mem_exponentLanguage.mpr ⟨c, _, _, rfl, by simpa using hc, hsign, ?_⟩)⟩
        · simp only [List.cons_append, List.append_assoc, List.takeWhile_append_dropWhile, happ]
        · exact mem_digitsLanguage.mpr ⟨by simpa using hds, takeWhile_passes _ _⟩
    · exact ⟨rfl, .inl rfl⟩

theorem exponentPart_longest (he : e ∈ exponentLanguage) (rest : List Char) :
    e.length ≤ (Floating.exponentPart (e ++ rest)).1.length ∧
      ∃ c e', e = c :: e' ∧ c.isDigit = false ∧ c ≠ '.' := by
  obtain ⟨c, s, ds, rfl, hc, hs, hds⟩ := mem_exponentLanguage.mp he
  obtain ⟨hne, hds⟩ := mem_digitsLanguage.mp hds
  obtain ⟨d, ds', rfl⟩ := List.exists_cons_of_ne_nil hne
  have hsign : Floating.signPart (s ++ d :: ds' ++ rest) = (s, d :: ds' ++ rest) := by
    have hd := hds d List.mem_cons_self
    rcases hs with rfl | rfl | rfl
    · unfold Floating.signPart
      split
      · next he => cases he; exact absurd hd (by decide)
      · next he => cases he; exact absurd hd (by decide)
      · rfl
    · rfl
    · rfl
  have hlen := le_length_takeWhile hds rest
  refine ⟨?_, c, _, rfl, ?_⟩
  · have hmark : (decide (c = 'e') || decide (c = 'E')) = true := by simpa using hc
    have hsome : ((d :: ds' ++ rest).takeWhile Char.isDigit).isEmpty = false := by
      rw [List.cons_append, List.takeWhile_cons_of_pos (hds d List.mem_cons_self)]; rfl
    rw [List.cons_append, Floating.exponentPart, if_pos hmark, hsign]
    simp only [hsome, Bool.false_eq_true, if_false, List.length_cons, List.length_append] at hlen ⊢
    omega
  · rcases hc with rfl | rfl <;> exact ⟨by decide, by decide⟩

end

/-! ## Numbers -/

namespace Lexeme
variable {cs ds w rest : List Char} {found : Lexeme}

theorem number?_sound (h : number? cs = some found) : found.tail ++ found.rest = cs ∧
    (found.kind = .int ∧ found.tail ∈ digitsLanguage ∨ found.kind = .float ∧ found.tail ∈ decimalsLanguage) := by
  simp only [number?] at h
  split at h
  · cases h
  next hwhole =>
  have hdigits : cs.takeWhile Char.isDigit ∈ digitsLanguage :=
    mem_digitsLanguage.mpr ⟨by simpa using hwhole, takeWhile_passes _ _⟩
  split at h
  · next r heq =>
    obtain ⟨happ, hexp⟩ := exponentPart_sound (r.dropWhile Char.isDigit)
    cases h
    refine ⟨?_, .inr ⟨rfl, .inl ?_⟩⟩
    · rw [List.append_assoc, List.append_assoc, happ, List.cons_append, List.takeWhile_append_dropWhile, ← heq,
        List.takeWhile_append_dropWhile]
    · rw [List.append_assoc]
      refine Language.append_mem_mul hdigits (Language.append_mem_mul ?_ hexp)
      exact mem_text_mul.mpr ⟨_, mem_star_oneChar.mpr (takeWhile_passes _ _), rfl⟩
  · obtain ⟨happ, hexp⟩ := exponentPart_sound (cs.dropWhile Char.isDigit)
    cases h
    refine ⟨by rw [List.append_assoc, happ, List.takeWhile_append_dropWhile], ?_⟩
    dsimp only
    split
    · next he =>
      rw [List.isEmpty_iff.mp he, List.append_nil]
      exact .inl ⟨rfl, hdigits⟩
    · next he =>
      refine .inr ⟨rfl, .inr (Language.append_mem_mul hdigits (hexp.resolve_left fun h => he ?_))⟩
      exact List.isEmpty_iff.mpr h

theorem first_digit_of_mem_decimalsLanguage (h : w ∈ decimalsLanguage) : ∃ d v, w = d :: v ∧ d.isDigit = true := by
  have behind : ∀ {l : Language Char}, w ∈ digitsLanguage * l → ∃ d v, w = d :: v ∧ d.isDigit = true := by
    intro l h
    rw [digitsLanguage, mul_assoc] at h
    obtain ⟨d, v, rfl, hd, -⟩ := mem_oneChar_mul.mp h
    exact ⟨d, v, rfl, hd⟩
  rcases h with h | h
  · exact behind h
  · exact behind h

theorem number?_digits_longest (h : ds ∈ digitsLanguage) (rest : List Char) :
    ∃ found, number? (ds ++ rest) = some found ∧
    ds.length ≤ found.tail.length ∧ (ds.length = found.tail.length → found.kind = .int) := by
  obtain ⟨hne, hds⟩ := mem_digitsLanguage.mp h
  have hlen := le_length_takeWhile hds rest
  have hpos : 0 < ds.length := List.length_pos_iff.mpr hne
  have hwhole : ((ds ++ rest).takeWhile Char.isDigit).isEmpty = false := by
    rw [List.isEmpty_eq_false_iff, ← List.length_pos_iff]; omega
  simp only [number?, hwhole, Bool.false_eq_true, if_false]
  split
  · refine ⟨_, rfl, ?_, fun h => ?_⟩
    · simp only [List.length_append, List.length_cons]; omega
    · simp only [List.length_append, List.length_cons] at h; omega
  · refine ⟨_, rfl, by simp only [List.length_append]; omega, fun h => ?_⟩
    simp only [List.length_append] at h
    rw [if_pos (List.isEmpty_iff.mpr (List.length_eq_zero_iff.mp (by omega)))]

theorem number?_decimals_longest (h : w ∈ decimalsLanguage) (rest : List Char) :
    ∃ found, number? (w ++ rest) = some found ∧
    w.length ≤ found.tail.length ∧ found.kind = .float := by
  rcases h with h | h
  · obtain ⟨ds, hds, v, hv, rfl⟩ := Language.mem_mul.mp h
    obtain ⟨u, hu, e, he, rfl⟩ := Language.mem_mul.mp hv
    obtain ⟨fs, hfs, rfl⟩ := mem_text_mul.mp hu
    obtain ⟨hne, hds⟩ := mem_digitsLanguage.mp hds
    obtain ⟨htake, hdrop⟩ := takeWhile_stops hds (c := '.') (by decide) (fs ++ (e ++ rest))
    have htext : ds ++ (['.'] ++ fs ++ e) ++ rest = ds ++ '.' :: (fs ++ (e ++ rest)) := by simp
    refine ⟨_, by simp only [htext, number?, htake, hdrop, List.isEmpty_iff, hne, if_false]; rfl, ?_, rfl⟩
    have hfs := mem_star_oneChar.mp hfs
    rcases he with rfl | he
    · have := le_length_takeWhile hfs rest
      simp only [List.length_append, List.length_cons, List.length_nil, List.nil_append] at this ⊢
      omega
    · obtain ⟨hlen, c, e', rfl, hc, -⟩ := exponentPart_longest he rest
      obtain ⟨htake', hdrop'⟩ := takeWhile_stops hfs hc (e' ++ rest)
      rw [List.cons_append] at hlen
      simp only [List.cons_append, htake', hdrop', List.length_append, List.length_cons, List.length_nil] at hlen ⊢
      omega
  · obtain ⟨ds, hds, e, he, rfl⟩ := Language.mem_mul.mp h
    obtain ⟨hne, hds⟩ := mem_digitsLanguage.mp hds
    obtain ⟨hlen, c, e', rfl, hc, hpoint⟩ := exponentPart_longest he rest
    obtain ⟨htake, hdrop⟩ := takeWhile_stops hds hc (e' ++ rest)
    have htext : ds ++ c :: e' ++ rest = ds ++ c :: (e' ++ rest) := by simp
    rw [List.cons_append] at hlen
    have hsome : (Floating.exponentPart (c :: (e' ++ rest))).1.isEmpty = false := by
      rw [List.isEmpty_eq_false_iff, ← List.length_pos_iff]
      exact Nat.lt_of_lt_of_le (Nat.zero_lt_succ _) hlen
    have hnumber : number? (ds ++ c :: (e' ++ rest)) =
        some ⟨.float, ds ++ (Floating.exponentPart (c :: (e' ++ rest))).1,
          (Floating.exponentPart (c :: (e' ++ rest))).2⟩ := by
      have hwhole : ds.isEmpty = false := List.isEmpty_eq_false_iff.mpr hne
      simp only [number?, htake, hdrop, hwhole, Bool.false_eq_true, if_false]
      split
      · next heq => cases heq; exact absurd rfl hpoint
      · simp only [hsome, Bool.false_eq_true, if_false]
    refine ⟨_, by rw [htext]; exact hnumber, ?_, rfl⟩
    simp only [List.length_append]
    omega

/-! ## Strings -/

theorem string?_sound {body : List Char} (h : string? cs = some (body, rest)) :
    body ++ rest = cs ∧ body ∈ stringPartLanguage∗ * {['"']} := by
  have behind : ∀ {v b : List Char}, v ∈ stringPartLanguage → b ∈ stringPartLanguage∗ * {['"']} →
      v ++ b ∈ stringPartLanguage∗ * {['"']} := by
    intro v b hv hb
    obtain ⟨vs, ⟨parts, rfl, hparts⟩, q, hq, rfl⟩ := Language.mem_mul.mp hb
    rw [← List.append_assoc]
    exact Language.append_mem_mul ⟨v :: parts, rfl, List.forall_mem_cons.mpr ⟨hv, hparts⟩⟩ hq
  induction cs using string?.induct generalizing body rest with
  | case1 => cases h
  | case2 cs => cases h; exact ⟨rfl, Language.append_mem_mul (Language.nil_mem_kstar _) rfl⟩
  | case3 => cases h
  | case4 => cases h
  | case5 cs => simp [string?] at h
  | case6 c cs hc ih =>
    simp only [string?, if_neg hc, Option.map_eq_some_iff] at h
    obtain ⟨⟨b, r⟩, hr, he⟩ := h
    cases he
    obtain ⟨rfl, hb⟩ := ih hr
    refine ⟨rfl, behind (v := ['\\', c]) (.inl ?_) hb⟩
    exact mem_text_mul.mpr ⟨[c], ⟨c, by simpa using hc, rfl⟩, rfl⟩
  | case7 c cs h1 h2 h3 ih =>
    rw [string?.eq_6 _ _ h1 h2 h3] at h
    obtain ⟨⟨b, r⟩, hr, he⟩ := Option.map_eq_some_iff.mp h
    cases he
    obtain ⟨rfl, hb⟩ := ih hr
    refine ⟨rfl, behind (v := [c]) (.inr ⟨c, ?_, rfl⟩) hb⟩
    simp only [Bool.and_eq_true, bne_iff_ne]
    exact ⟨⟨h1, h3⟩, h2⟩

theorem string?_complete (h : w ∈ stringPartLanguage∗ * {['"']}) : string? (w ++ rest) = some (w, rest) := by
  obtain ⟨_, ⟨parts, rfl, hparts⟩, _, rfl, rfl⟩ := Language.mem_mul.mp h
  clear h
  induction parts with
  | nil => rfl
  | cons v parts ih =>
    obtain ⟨hv, hparts⟩ := List.forall_mem_cons.mp hparts
    have ih := ih hparts
    rw [List.append_assoc] at ih
    rcases hv with hv | ⟨c, hc, rfl⟩
    · obtain ⟨_, ⟨c, hc, rfl⟩, rfl⟩ := mem_text_mul.mp hv
      have hc : c ≠ '\n' := by simpa using hc
      simp only [List.flatten_cons, List.cons_append, List.nil_append, string?, if_neg hc, List.append_assoc,
        Option.map_eq_some_iff]
      exact ⟨_, ih, rfl⟩
    · simp only [Bool.and_eq_true, bne_iff_ne] at hc
      simp only [List.flatten_cons, List.cons_append, List.nil_append, List.append_assoc]
      rw [string?.eq_6 _ _ hc.1.1 hc.2 hc.1.2, Option.map_eq_some_iff]
      exact ⟨_, ih, rfl⟩

end Lexeme

/-! ## Tokens -/

theorem ne_nil_of_mem_language {k : TokenKind} {w : List Char} (h : w ∈ k.language) : w ≠ [] := by
  have behind : ∀ {l m : Language Char}, w ∈ l * m → [] ∉ l → w ≠ [] := by
    rintro l m h hl rfl
    obtain ⟨u, hu, v, -, he⟩ := Language.mem_mul.mp h
    exact hl ((List.append_eq_nil_iff.mp he).1 ▸ hu)
  have single : ∀ {c : Char}, [] ∉ ({[c]} : Language Char) := nofun
  cases k with
  | valueName => exact behind h single
  | symbolName => exact behind h single
  | string => exact behind h single
  | word => exact behind h (by rintro ⟨_, -, ⟨⟩⟩)
  | float =>
    obtain ⟨s, -, v, hv, rfl⟩ := Language.mem_mul.mp h
    obtain ⟨d, v, rfl, -⟩ := Lexeme.first_digit_of_mem_decimalsLanguage hv
    simp
  | int =>
    obtain ⟨s, -, v, hv, rfl⟩ := Language.mem_mul.mp h
    simp [(mem_digitsLanguage.mp hv).1]
  | endOfText => exact absurd h (Language.notMem_zero _)
  | _ => rw [mem_singleton_language.mp h]; exact List.cons_ne_nil _ _

namespace Lexeme
variable {cs w rest : List Char} {found : Lexeme}

theorem language_ofPunctuation? {c : Char} {k : TokenKind} (h : TokenKind.ofPunctuation? c = some k) :
    k.language = {[c]} := by
  unfold TokenKind.ofPunctuation? at h
  split at h <;> cases h <;> rfl

theorem number?_tail_ne_nil (h : number? cs = some found) : found.tail ≠ [] := by
  rcases (number?_sound h).2 with ⟨-, hk⟩ | ⟨-, hk⟩
  · exact (mem_digitsLanguage.mp hk).1
  · obtain ⟨d, v, he, -⟩ := first_digit_of_mem_decimalsLanguage hk
    exact he ▸ List.cons_ne_nil d v

theorem number?_signed {s : List Char} (hs : s ∈ (1 + {['-']} : Language Char)) (h : number? cs = some found) :
    s ++ found.tail ∈ found.kind.language := by
  rcases (number?_sound h).2 with ⟨hkind, hk⟩ | ⟨hkind, hk⟩ <;>
    exact hkind ▸ Language.append_mem_mul hs hk

/-- A token takes its characters off the front of the text, and they are in the language of its kind. -/
theorem at?_sound {c : Char} (h : at? c cs = some found) :
    found.tail ++ found.rest = cs ∧ c :: found.tail ∈ found.kind.language := by
  cases starts_of_at? h with
  | word hc => exact ⟨List.takeWhile_append_dropWhile, cons_mem_oneChar_mul_star.mpr ⟨hc, takeWhile_passes _ _⟩⟩
  | valueName hne =>
    refine ⟨List.takeWhile_append_dropWhile, cons_mem_text_mul.mpr ⟨rfl, ?_⟩⟩
    show cs.takeWhile isNameChar ∈ _
    have all := takeWhile_passes isNameChar cs
    obtain ⟨d, ds, ht⟩ := List.exists_cons_of_ne_nil hne
    rw [ht, List.forall_mem_cons] at all
    exact ht ▸ cons_mem_oneChar_mul_star.mpr all
  | @symbolName d ds hd =>
    refine ⟨congrArg (d :: ·) List.takeWhile_append_dropWhile, cons_mem_text_mul.mpr ⟨rfl, ?_⟩⟩
    exact cons_mem_oneChar_mul_star.mpr ⟨hd, takeWhile_passes _ _⟩
  | @digit _ _ n hc hn =>
    have happ := (number?_sound hn).1
    have hlang := number?_signed (s := []) (.inl rfl) hn
    -- the number has a character, which is the digit at the front of the text
    obtain ⟨hnil, -⟩ | ⟨ds, ht, rfl⟩ := List.append_eq_cons_iff.mp happ
    · exact absurd hnil (number?_tail_ne_nil hn)
    · rw [ht] at hlang
      exact ⟨by rw [ht]; rfl, by rw [ht]; exact hlang⟩
  | arrow => exact ⟨rfl, rfl⟩
  | minus hn => exact ⟨(number?_sound hn).1, number?_signed (s := ['-']) (.inr rfl) hn⟩
  | quote hr =>
    obtain ⟨happ, hbody⟩ := string?_sound hr
    exact ⟨happ, cons_mem_text_mul.mpr ⟨rfl, hbody⟩⟩
  | mark hk => exact ⟨rfl, by rw [language_ofPunctuation? hk]; exact rfl⟩

/-- The lexeme is there, it is no shorter than a token of the kind with `n` characters behind the first, and
it is of that kind if it is no longer. -/
def Reaches (answer : Option Lexeme) (k : TokenKind) (n : Nat) : Prop :=
  ∃ found, answer = some found ∧ n ≤ found.tail.length ∧ (n = found.tail.length → found.kind = k)

theorem at?_digit {c : Char} (hc : c.isDigit = true) (cs : List Char) :
    at? c cs = (number? (c :: cs)).map fun found => { found with tail := found.tail.drop 1 } := by
  obtain ⟨hstart, hpercent, hsign, -⟩ := digit_spec hc
  unfold at?
  rw [if_neg (by simp [hstart]), if_neg hpercent, if_neg hsign, if_pos hc]

theorem at?_minus {d : Char} (hd : d.isDigit = true) (ds : List Char) : at? '-' (d :: ds) = number? (d :: ds) := by
  have hstart : isNameStart '-' = false := by decide
  unfold at?
  rw [if_neg (by simp [hstart]), if_neg (by decide), if_neg (by decide), if_neg (by decide), if_pos rfl]
  split
  · next heq => cases heq; exact absurd hd (by decide)
  · rfl

/-- A string ends with its closing quote, whatever stands behind it. -/
theorem at?_quote (h : w ∈ stringPartLanguage∗ * {['"']}) (rest : List Char) :
    at? '"' (w ++ rest) = some ⟨.string, w, rest⟩ := by
  have hstart : isNameStart '"' = false := by decide
  unfold at?
  rw [if_neg (by simp [hstart]), if_neg (by decide), if_neg (by decide), if_neg (by decide), if_neg (by decide),
    if_pos rfl, string?_complete h]
  rfl

theorem at?_number {l : Language Char} {k : TokenKind} {c : Char}
    (first : ∀ {w}, w ∈ l → ∃ d v, w = d :: v ∧ d.isDigit = true)
    (hl : ∀ {w} (rest), w ∈ l → Reaches (number? (w ++ rest)) k w.length)
    (h : c :: w ∈ (1 + {['-']}) * l) : Reaches (at? c (w ++ rest)) k w.length := by
  obtain ⟨s, hs, v, hv, he⟩ := Language.mem_mul.mp h
  obtain ⟨d, v, rfl, hd⟩ := first hv
  obtain ⟨found, hfound, hlen, hkind⟩ := hl rest hv
  rcases hs with rfl | rfl
  · obtain ⟨rfl, rfl⟩ := List.cons.inj he
    rw [at?_digit hd]
    refine ⟨{ found with tail := found.tail.drop 1 }, by rw [← List.cons_append, hfound]; rfl, ?_, fun h => hkind ?_⟩
    · simp only [List.length_drop, List.length_cons] at hlen ⊢; omega
    · simp only [List.length_drop, List.length_cons] at hlen h ⊢; omega
  · obtain ⟨rfl, rfl⟩ := List.cons.inj he
    show Reaches (at? '-' (d :: (v ++ rest))) k _
    rw [at?_minus hd]
    exact ⟨found, hfound, hlen, hkind⟩

/-- **The longest token is read**: if a front of the text is a token, a token is read that is no shorter, and
it is of the same kind if it is no longer. -/
theorem at?_longest {c : Char} {k : TokenKind} (h : c :: w ∈ k.language) (rest : List Char) :
    Reaches (at? c (w ++ rest)) k w.length := by
  -- a mark is a language of one word
  have mark : ∀ {d : Char}, c :: w ∈ ({[d]} : Language Char) → TokenKind.ofPunctuation? d = some k →
      Reaches (at? c (w ++ rest)) k w.length := by
    rintro d h hk
    cases h
    refine ⟨⟨k, [], rest⟩, ?_, Nat.le_refl _, fun _ => rfl⟩
    unfold TokenKind.ofPunctuation? at hk
    split at hk <;> cases hk <;> rfl
  cases k with
  | valueName =>
    obtain ⟨rfl, hw⟩ := cons_mem_text_mul.mp h
    obtain ⟨d, v, rfl, hd, hv⟩ := mem_oneChar_mul.mp hw
    have hall : ∀ e ∈ d :: v, isNameChar e = true := List.forall_mem_cons.mpr ⟨hd, mem_star_oneChar.mp hv⟩
    have hstart : isNameStart '%' = false := by decide
    have hlen := le_length_takeWhile hall rest
    refine ⟨name .valueName (d :: v ++ rest), ?_, hlen, fun _ => rfl⟩
    have hne : (name .valueName (d :: v ++ rest)).tail.isEmpty = false := by
      rw [name, List.cons_append, List.takeWhile_cons_of_pos hd]; rfl
    unfold at?
    rw [if_neg (by simp [hstart]), if_pos rfl]
    simp only [hne, Bool.false_eq_true, if_false]
  | symbolName =>
    obtain ⟨rfl, hw⟩ := cons_mem_text_mul.mp h
    obtain ⟨d, v, rfl, hd, hv⟩ := mem_oneChar_mul.mp hw
    have hstart : isNameStart '@' = false := by decide
    have hlen := le_length_takeWhile (mem_star_oneChar.mp hv) rest
    refine ⟨{ name .symbolName (v ++ rest) with tail := d :: (name .symbolName (v ++ rest)).tail }, ?_,
      Nat.succ_le_succ hlen, fun _ => rfl⟩
    unfold at?
    rw [if_neg (by simp [hstart]), if_neg (by decide), if_pos rfl, List.cons_append]
    simp only [hd, if_true]
  | word =>
    obtain ⟨hc, hw⟩ := cons_mem_oneChar_mul_star.mp h
    exact ⟨name .word (w ++ rest), by unfold at?; rw [if_pos hc], le_length_takeWhile hw rest, fun _ => rfl⟩
  | float =>
    refine at?_number (fun h => first_digit_of_mem_decimalsLanguage h) (fun rest h => ?_) h
    obtain ⟨found, hfound, hlen, hkind⟩ := number?_decimals_longest h rest
    exact ⟨found, hfound, hlen, fun _ => hkind⟩
  | int =>
    refine at?_number (fun h => ?_) (fun rest h => number?_digits_longest h rest) h
    obtain ⟨d, v, rfl, hd, -⟩ := mem_oneChar_mul.mp h
    exact ⟨d, v, rfl, hd⟩
  | string =>
    obtain ⟨rfl, hw⟩ := cons_mem_text_mul.mp h
    exact ⟨⟨.string, w, rest⟩, at?_quote hw rest, Nat.le_refl _, fun _ => rfl⟩
  | arrow => cases h; exact ⟨⟨.arrow, ['>'], rest⟩, rfl, Nat.le_refl _, fun _ => rfl⟩
  | endOfText => exact absurd h (Language.notMem_zero _)
  | _ => exact mark h rfl

end Lexeme

end GateAsm
