import GateAsm.Proofs.Grammar.Word
import GateAsm.Proofs.Scope

/-!
# From text to words

`Lexes cs ws` says that the characters `cs` are the words `ws` with blanks and comments between them. The
lexer finds exactly these words. What it makes of a name or a number depends on the next character, so a
piece of text is described with what may stand behind it (`Emits`) and in front of it (`Follows`).
-/

namespace GateAsm

def Lexeme.token (c : Char) (found : Lexeme) (l : Location) : Token := ⟨found.kind, String.ofList (c :: found.tail), l⟩

/-- The characters are these words with gaps between them. -/
inductive Lexes : List Char → List Word → Prop
  | nil : Lexes [] []
  | gap {c : Char} {cs g rest : List Char} {ws : List Word} : gapAt? c cs = some (g, rest) → Lexes rest ws →
      Lexes (c :: cs) ws
  | token {c : Char} {cs : List Char} {found : Lexeme} {ws : List Word} : gapAt? c cs = none →
      Lexeme.at? c cs = some found → Lexes found.rest ws → Lexes (c :: cs) ((found.token c .start).word :: ws)

/-! ## Names -/

def IsValueName (n : String) : Prop := ∃ c cs, n.toList = '%' :: c :: cs ∧ ∀ d ∈ c :: cs, isNameChar d = true

/-- The text can stand as a word, and behind the mark of a symbol. -/
def IsName (n : String) : Prop := ∃ c cs, n.toList = c :: cs ∧ isNameStart c = true ∧ ∀ d ∈ cs, isNameChar d = true

theorem IsValueName.visible {n : String} (h : IsValueName n) : Block.Visible n := by
  obtain ⟨c, cs, hn, hc⟩ := h
  rw [Block.visible_iff, hn]
  rintro ⟨t, ht⟩
  obtain ⟨rfl, -⟩ : '#' = c ∧ t = cs := by simpa using ht
  exact absurd (hc '#' List.mem_cons_self) (by decide)

instance (n : String) : Decidable (IsValueName n) :=
  decidable_of_iff (n.toList.head? = some '%' ∧ n.toList.drop 1 ≠ [] ∧ (n.toList.drop 1).all isNameChar = true) <| by
    rw [List.all_eq_true]
    unfold IsValueName
    rcases n.toList with _ | ⟨c, _ | ⟨d, ds⟩⟩
    · constructor
      · rintro ⟨h, -⟩; cases h
      · rintro ⟨_, _, h, -⟩; cases h
    · constructor
      · rintro ⟨-, h, -⟩; exact absurd rfl h
      · rintro ⟨_, _, h, -⟩; cases h
    · constructor
      · rintro ⟨hc, -, hd⟩; cases hc; exact ⟨d, ds, rfl, hd⟩
      · rintro ⟨_, _, h, hd⟩; cases h; exact ⟨rfl, nofun, hd⟩

instance (n : String) : Decidable (IsName n) :=
  decidable_of_iff (n.toList.head?.any isNameStart = true ∧ (n.toList.drop 1).all isNameChar = true) <| by
    rw [List.all_eq_true]
    unfold IsName
    rcases n.toList with _ | ⟨c, cs⟩
    · constructor
      · rintro ⟨h, -⟩; cases h
      · rintro ⟨_, _, h, -⟩; cases h
    · constructor
      · rintro ⟨hc, hd⟩; exact ⟨c, cs, rfl, hc, hd⟩
      · rintro ⟨_, _, h, hc⟩; cases h; exact hc

def IsInteger (n : String) : Prop :=
  ∃ ds, (n.toList = ds ∨ n.toList = '-' :: ds) ∧ ∀ c ∈ ds, c.isDigit = true

def IsFloat (n : String) : Prop := ∃ c cs, n.toList = c :: cs ∧ Lexeme.at? c cs = some ⟨.float, cs, []⟩

instance (n : String) : Decidable (IsFloat n) :=
  decidable_of_iff
    ((n.toList.head?.bind fun c => Lexeme.at? c (n.toList.drop 1)) = some ⟨.float, n.toList.drop 1, []⟩) <| by
    unfold IsFloat
    rcases n.toList with _ | ⟨c, cs⟩
    · constructor
      · intro h; cases h
      · rintro ⟨_, _, h, -⟩; cases h
    · constructor
      · intro h; exact ⟨c, cs, rfl, h⟩
      · rintro ⟨_, _, h, hc⟩; cases h; exact hc

/-- The text of a word is as words of its kind are spelled; no word stands for the end of a text. -/
def Word.Spelled (w : Word) : Prop :=
  match w.kind with
  | .valueName => IsValueName w.text
  | .word => IsName w.text
  | .symbolName => IsName (String.ofList (w.text.toList.drop 1))
  | .int => IsInteger w.text
  | .endOfText => False
  | _ => True

/-! ## Lexemes -/

theorem takeWhile_passes (p : Char → Bool) (cs : List Char) : ∀ c ∈ cs.takeWhile p, p c = true :=
  List.all_eq_true.mp List.all_takeWhile

namespace Lexeme

theorem exponentPart_suffix (cs : List Char) : (Floating.exponentPart cs).2 <:+ cs := by
  unfold Floating.exponentPart
  split
  · exact List.suffix_refl _
  · next c cs =>
    split
    · have hr : (Floating.signPart cs).2 <:+ cs := by
        unfold Floating.signPart
        split <;> simp [List.suffix_cons]
      dsimp only
      split
      · exact List.suffix_refl _
      · exact (List.dropWhile_suffix _).trans (hr.trans (List.suffix_cons _ _))
    · exact List.suffix_refl _

theorem number?_suffix {cs : List Char} {found : Lexeme} (h : number? cs = some found) :
    found.rest <:+ cs.dropWhile Char.isDigit ∧
      (found.kind = .float ∨ found.kind = .int ∧ ∀ c ∈ found.tail, c.isDigit = true) := by
  simp only [number?] at h
  split at h
  · cases h
  · split at h
    · next rest heq =>
      cases h
      rw [heq]
      exact ⟨(exponentPart_suffix _).trans ((List.dropWhile_suffix _).trans (List.suffix_cons _ _)), .inl rfl⟩
    · next rest _ heq =>
      cases h
      refine ⟨exponentPart_suffix _, ?_⟩
      dsimp only
      split
      · next he =>
        refine .inr ⟨rfl, ?_⟩
        rw [List.isEmpty_iff.mp he, List.append_nil]
        exact List.all_eq_true.mp List.all_takeWhile
      · exact .inl rfl

theorem string?_suffix {cs body rest : List Char} (h : string? cs = some (body, rest)) : rest <:+ cs := by
  induction cs using string?.induct generalizing body rest with
  | case1 => cases h
  | case2 cs => cases h; exact List.suffix_cons _ _
  | case3 => cases h
  | case4 => cases h
  | case5 cs => simp [string?] at h
  | case6 c cs hc ih =>
    simp only [string?, if_neg hc, Option.map_eq_some_iff] at h
    obtain ⟨⟨b, r⟩, hr, he⟩ := h
    cases he
    exact (ih hr).trans ((List.suffix_cons _ _).trans (List.suffix_cons _ _))
  | case7 c cs h1 h2 h3 ih =>
    rw [string?.eq_6] at h
    · obtain ⟨⟨b, r⟩, hr, he⟩ := Option.map_eq_some_iff.mp h
      cases he
      exact (ih hr).trans (List.suffix_cons _ _)
    · exact h1
    · exact h2
    · exact h3

/-- How a token starts, and what is then taken as the token of the text `c :: cs`. -/
inductive Starts : Char → List Char → Lexeme → Prop
  | word {c : Char} {cs : List Char} : isNameStart c = true → Starts c cs (name .word cs)
  | valueName {cs : List Char} : cs.takeWhile isNameChar ≠ [] → Starts '%' cs (name .valueName cs)
  | symbolName {d : Char} {ds : List Char} : isNameStart d = true →
      Starts '@' (d :: ds) { name .symbolName ds with tail := d :: (name .symbolName ds).tail }
  | digit {c : Char} {cs : List Char} {found : Lexeme} : c.isDigit = true → number? (c :: cs) = some found →
      Starts c cs { found with tail := found.tail.drop 1 }
  | arrow {rest : List Char} : Starts '-' ('>' :: rest) ⟨.arrow, ['>'], rest⟩
  | minus {cs : List Char} {found : Lexeme} : number? cs = some found → Starts '-' cs found
  | quote {cs body rest : List Char} : string? cs = some (body, rest) → Starts '"' cs ⟨.string, body, rest⟩
  | mark {c : Char} {cs : List Char} {k : TokenKind} : TokenKind.ofPunctuation? c = some k → Starts c cs ⟨k, [], cs⟩

theorem starts_of_at? {c : Char} {cs : List Char} {found : Lexeme} (h : at? c cs = some found) : Starts c cs found := by
  unfold at? at h
  split at h
  · next hc => cases h; exact .word hc
  split at h
  · next hc =>
    subst hc
    dsimp only at h
    split at h
    · cases h
    · next hne => cases h; exact .valueName fun he => hne (List.isEmpty_iff.mpr he)
  split at h
  · next hc =>
    subst hc
    split at h
    · split at h
      · next hd => cases h; exact .symbolName hd
      · cases h
    · cases h
  split at h
  · next hc =>
    obtain ⟨n, hn, rfl⟩ := Option.map_eq_some_iff.mp h
    exact .digit hc hn
  split at h
  · next hc =>
    subst hc
    split at h
    · cases h; exact .arrow
    · exact .minus h
  split at h
  · next hc =>
    subst hc
    obtain ⟨⟨body, rest⟩, hr, rfl⟩ := Option.map_eq_some_iff.mp h
    exact .quote hr
  · obtain ⟨k, hk, rfl⟩ := Option.map_eq_some_iff.mp h
    exact .mark hk

theorem at?_spec {c : Char} {cs : List Char} {found : Lexeme} (h : at? c cs = some found) (l : Location) :
    found.rest <:+ cs ∧ (found.token c l).word.Spelled := by
  cases starts_of_at? h with
  | word hc => exact ⟨List.dropWhile_suffix _, c, _, String.toList_ofList, hc, takeWhile_passes _ cs⟩
  | valueName hne =>
    refine ⟨List.dropWhile_suffix _, ?_⟩
    show IsValueName (String.ofList ('%' :: cs.takeWhile isNameChar))
    obtain ⟨d, ds, ht⟩ := List.exists_cons_of_ne_nil hne
    exact ⟨d, ds, by rw [String.toList_ofList, ht], ht ▸ takeWhile_passes isNameChar cs⟩
  | @symbolName d ds hd =>
    refine ⟨(List.dropWhile_suffix _).trans (List.suffix_cons _ _), d, ds.takeWhile isNameChar, ?_, hd,
      takeWhile_passes _ ds⟩
    simp [token, name, Token.word, TokenKind.isVaried]
  | @digit _ _ n hc hn =>
    obtain ⟨hs, hk⟩ := number?_suffix hn
    rw [List.dropWhile_cons_of_pos hc] at hs
    refine ⟨hs.trans (List.dropWhile_suffix _), ?_⟩
    rcases hk with hk | ⟨hk, hd⟩
    · simp [Word.Spelled, token, hk]
    · simp only [Word.Spelled, token, Token.word, hk]
      refine ⟨c :: n.tail.drop 1, .inl String.toList_ofList, fun d hm => ?_⟩
      rcases List.mem_cons.mp hm with rfl | hm
      · exact hc
      · exact hd d (List.mem_of_mem_drop hm)
  | arrow => exact ⟨List.suffix_cons _ _, trivial⟩
  | minus hn =>
    obtain ⟨hs, hk⟩ := number?_suffix hn
    refine ⟨hs.trans (List.dropWhile_suffix _), ?_⟩
    rcases hk with hk | ⟨hk, hd⟩
    · simp [Word.Spelled, token, hk]
    · simp only [Word.Spelled, token, Token.word, hk]
      exact ⟨found.tail, .inr String.toList_ofList, hd⟩
  | quote hr => exact ⟨string?_suffix hr, trivial⟩
  | mark hk =>
    refine ⟨List.suffix_refl _, ?_⟩
    unfold TokenKind.ofPunctuation? at hk
    split at hk <;> cases hk <;> trivial

end Lexeme

/-! ## The lexer -/

theorem gapAt?_suffix {c : Char} {cs g rest : List Char} (h : gapAt? c cs = some (g, rest)) : rest <:+ cs := by
  unfold gapAt? at h
  split at h
  · cases h; exact List.suffix_refl _
  split at h
  · split at h
    · cases h; exact (List.dropWhile_suffix _).trans (List.suffix_cons _ _)
    · cases h
  · cases h

theorem lexes_of_lexFrom {fuel : Nat} {l : Location} {cs : List Char} {s : TokenStream}
    (h : TokenStream.lexFrom fuel l cs = .ok s) :
    Lexes cs (s.tokens.map Token.word) ∧ ∀ w ∈ s.tokens.map Token.word, w.Spelled := by
  induction fuel generalizing l cs s with
  | zero =>
    cases cs with
    | nil => cases h; exact ⟨.nil, nofun⟩
    | cons c cs => cases h
  | succ fuel ih =>
    cases cs with
    | nil => cases h; exact ⟨.nil, nofun⟩
    | cons c cs =>
      simp only [TokenStream.lexFrom] at h
      split at h
      · next g rest hg =>
        obtain ⟨hl, ht⟩ := ih h
        exact ⟨.gap hg hl, ht⟩
      · next hg =>
        split at h
        · cases h
        · next found hf =>
          cases hrest : TokenStream.lexFrom fuel (l.advance (c :: found.tail)) found.rest with
          | error e => rw [hrest] at h; cases h
          | ok s' =>
            rw [hrest] at h
            cases h
            obtain ⟨hl, ht⟩ := ih hrest
            refine ⟨.token hg hf hl, fun t hmem => ?_⟩
            rcases List.mem_cons.mp hmem with rfl | hmem
            · exact (Lexeme.at?_spec hf l).2
            · exact ht t hmem

theorem lexFrom_of_lexes {cs : List Char} {ws : List Word} (h : Lexes cs ws) {fuel : Nat} {l : Location}
    (hf : cs.length ≤ fuel) : ∃ s, TokenStream.lexFrom fuel l cs = .ok s ∧ s.tokens.map Token.word = ws := by
  induction h generalizing fuel l with
  | nil => exact ⟨⟨[], l⟩, by simp [TokenStream.lexFrom], rfl⟩
  | @gap c cs g rest ws hg _ ih =>
    cases fuel with
    | zero => cases hf
    | succ fuel =>
      have hlen : rest.length ≤ fuel := Nat.le_trans (gapAt?_suffix hg).length_le (Nat.le_of_succ_le_succ hf)
      obtain ⟨s, hs, hw⟩ := ih hlen
      exact ⟨s, by simp only [TokenStream.lexFrom, hg]; exact hs, hw⟩
  | @token c cs found ws hg hfound _ ih =>
    cases fuel with
    | zero => cases hf
    | succ fuel =>
      have hlen : found.rest.length ≤ fuel :=
        Nat.le_trans (Lexeme.at?_spec hfound .start).1.length_le (Nat.le_of_succ_le_succ hf)
      obtain ⟨s, hs, hw⟩ := ih (l := l.advance (c :: found.tail)) hlen
      refine ⟨_, by simp only [TokenStream.lexFrom, hg, hfound, hs]; rfl, ?_⟩
      simp only [List.map_cons, hw]
      rfl

/-- The tokens of a text are the words that its characters are, and names are spelled as such. -/
theorem lexes_of_ofText {text : String} {s : TokenStream} (h : TokenStream.ofText text = .ok s) :
    Lexes text.toList (s.tokens.map Token.word) ∧ ∀ w ∈ s.tokens.map Token.word, w.Spelled :=
  lexes_of_lexFrom h

theorem ofText_of_lexes {text : String} {ws : List Word} (h : Lexes text.toList ws) :
    ∃ s, TokenStream.ofText text = .ok s ∧ s.tokens.map Token.word = ws :=
  lexFrom_of_lexes h (Nat.le_of_eq String.length_toList)

/-! ## Pieces of text -/

/-- No name or number goes on with these characters. -/
def Stops (cs : List Char) : Prop := ∀ c ∈ cs.head?, isNameChar c = false

/-- The characters are these words, if no name or number goes on behind them. -/
def Emits (cs : List Char) (ws : List Word) : Prop :=
  ∀ rest vs, Stops rest → Lexes rest vs → Lexes (cs ++ rest) (ws ++ vs)

/-- The characters are these words as well, and no name or number in front of them goes on with them. -/
def Follows (cs : List Char) (ws : List Word) : Prop :=
  ∀ rest vs, Stops rest → Lexes rest vs → Stops (cs ++ rest) ∧ Lexes (cs ++ rest) (ws ++ vs)

section
variable {cs ds : List Char} {ws vs : List Word} {c : Char}

theorem Stops.nil : Stops [] := nofun

theorem Stops.cons (h : isNameChar c = false) : Stops (c :: cs) := by
  intro d hd
  cases hd
  exact h

theorem Emits.lexes (h : Emits cs ws) : Lexes cs ws := by
  have := h [] [] .nil .nil
  rwa [List.append_nil, List.append_nil] at this

theorem Emits.nil : Emits [] [] := fun _ _ _ h => h

theorem Follows.nil : Follows [] [] := fun _ _ hs h => ⟨hs, h⟩

theorem Follows.emits (h : Follows cs ws) : Emits cs ws := fun rest vs hs hl => (h rest vs hs hl).2

theorem Emits.append (h : Emits cs ws) (h' : Follows ds vs) : Emits (cs ++ ds) (ws ++ vs) := by
  intro rest us hs hl
  obtain ⟨hs', hl'⟩ := h' rest us hs hl
  rw [List.append_assoc, List.append_assoc]
  exact h _ _ hs' hl'

theorem Follows.append (h : Follows cs ws) (h' : Follows ds vs) : Follows (cs ++ ds) (ws ++ vs) := by
  intro rest us hs hl
  obtain ⟨hs', hl'⟩ := h' rest us hs hl
  rw [List.append_assoc, List.append_assoc]
  exact h _ _ hs' hl'

theorem Emits.behind_space (hc : isTokenSpace c = true) (h : Emits cs ws) : Follows (c :: cs) ws := by
  intro rest vs hs hl
  have hgap : gapAt? c (cs ++ rest) = some ([c], cs ++ rest) := by simp [gapAt?, hc]
  refine ⟨.cons ?_, .gap hgap (h rest vs hs hl)⟩
  simp only [isTokenSpace, Bool.or_eq_true, decide_eq_true_eq] at hc
  rcases hc with (((rfl | rfl) | rfl) | rfl) | rfl <;> decide

theorem mark_spec {k : TokenKind} (hc : TokenKind.ofPunctuation? c = some k) : isNameChar c = false ∧
    k.isVaried = false ∧ ∀ cs, gapAt? c cs = none ∧ Lexeme.at? c cs = some ⟨k, [], cs⟩ := by
  unfold TokenKind.ofPunctuation? at hc
  split at hc <;> cases hc <;> exact ⟨by decide, rfl, fun _ => ⟨rfl, rfl⟩⟩

theorem Lexes.mark {k : TokenKind} (hc : TokenKind.ofPunctuation? c = some k) (h : Lexes cs ws) :
    Lexes (c :: cs) (.mark k :: ws) := by
  obtain ⟨-, hk, hat⟩ := mark_spec hc
  have := Lexes.token (hat cs).1 (hat cs).2 h
  rwa [(Token.word_eq_mark_iff hk).mpr rfl] at this

theorem Emits.behind_mark {k : TokenKind} (hc : TokenKind.ofPunctuation? c = some k) (h : Emits cs ws) :
    Follows (c :: cs) (.mark k :: ws) := fun rest vs hs hl => ⟨.cons (mark_spec hc).1, .mark hc (h rest vs hs hl)⟩

/-- Anything may stand behind a mark that closes what is in front of it. -/
theorem Emits.closed {k : TokenKind} (h : Emits cs ws) (hc : TokenKind.ofPunctuation? c = some k) (hl : Lexes ds vs) :
    Lexes (cs ++ c :: ds) (ws ++ .mark k :: vs) := h _ _ (.cons (mark_spec hc).1) (.mark hc hl)

theorem Emits.behind_arrow (h : Emits cs ws) : Follows ('-' :: '>' :: cs) (.mark .arrow :: ws) := by
  intro rest vs hs hl
  refine ⟨.cons (by decide), ?_⟩
  have hat : Lexeme.at? '-' ('>' :: (cs ++ rest)) = some ⟨.arrow, ['>'], cs ++ rest⟩ := rfl
  have := Lexes.token rfl hat (h rest vs hs hl)
  rwa [(Token.word_eq_mark_iff (k := .arrow) rfl).mpr rfl] at this

end

/-! ## Names and numbers -/

section
variable {p : Char → Bool} {cs rest : List Char}

theorem takeWhile_append (hp : ∀ c, p c = true → isNameChar c = true) (cs : List Char) (hs : Stops rest) :
    (cs ++ rest).takeWhile p = cs.takeWhile p ∧ (cs ++ rest).dropWhile p = cs.dropWhile p ++ rest := by
  induction cs with
  | nil =>
    cases rest with
    | nil => exact ⟨rfl, rfl⟩
    | cons c rest =>
      have hc : ¬ p c = true := fun h => by
        have := hs c rfl
        rw [hp c h] at this
        cases this
      exact ⟨List.takeWhile_cons_of_neg hc, List.dropWhile_cons_of_neg hc⟩
  | cons c cs ih =>
    by_cases hc : p c = true
    · simp only [List.cons_append, List.takeWhile_cons_of_pos hc, List.dropWhile_cons_of_pos hc, ih, and_self]
    · simp only [List.cons_append, List.takeWhile_cons_of_neg hc, List.dropWhile_cons_of_neg hc, and_self]

theorem takeWhile_append_of_stops (hp : ∀ c, p c = true → isNameChar c = true) (hcs : ∀ c ∈ cs, p c = true)
    (hs : Stops rest) : (cs ++ rest).takeWhile p = cs ∧ (cs ++ rest).dropWhile p = rest := by
  obtain ⟨htake, hdrop⟩ := takeWhile_append hp [] hs
  rw [List.takeWhile_append_of_pos hcs, List.dropWhile_append_of_pos hcs]
  exact ⟨by simpa using htake, hdrop⟩

end

theorem emits_token {k : TokenKind} {c : Char} {cs : List Char} {n : String} (hn : n.toList = c :: cs)
    (hc : isTokenSpace c = false ∧ c ≠ '/') (hk : k.isVaried = true)
    (hat : ∀ rest, Stops rest → Lexeme.at? c (cs ++ rest) = some ⟨k, cs, rest⟩) : Emits n.toList [⟨k, n⟩] := by
  intro rest vs hs hl
  have hgap : gapAt? c (cs ++ rest) = none := by simp [gapAt?, hc]
  have hword : (Lexeme.token c ⟨k, cs, rest⟩ .start).word = ⟨k, n⟩ :=
    (Token.word_eq_iff hk).mpr ⟨rfl, by rw [← String.toList_inj, hn]; exact String.toList_ofList⟩
  have := Lexes.token hgap (hat rest hs) hl
  rw [hword] at this
  rw [hn]
  exact this

theorem emits_valueName {n : String} (h : IsValueName n) : Emits n.toList [⟨.valueName, n⟩] := by
  obtain ⟨c, cs, hn, hc⟩ := h
  refine emits_token hn (by decide) rfl fun rest hs => ?_
  obtain ⟨htake, hdrop⟩ := takeWhile_append_of_stops (fun _ h => h) hc hs
  have start : isNameStart '%' = false := by decide
  unfold Lexeme.at?
  rw [if_neg (by simp [start]), if_pos rfl]
  simp only [Lexeme.name, htake, hdrop]
  rfl

theorem nameStart_nameChar {c : Char} (h : isNameStart c = true) : isNameChar c = true := by
  simp only [isNameStart, isNameChar, Char.isAlphanum, Bool.or_eq_true] at *
  rcases h with h | h
  · exact .inl (.inl (.inl (.inl h)))
  · exact .inl (.inl (.inr h))

theorem nameStart_spec {c : Char} (h : isNameStart c = true) : isTokenSpace c = false ∧ c ≠ '/' := by
  have hchar := nameStart_nameChar h
  refine ⟨?_, ?_⟩
  · cases hs : isTokenSpace c with
    | false => rfl
    | true =>
      simp only [isTokenSpace, Bool.or_eq_true, decide_eq_true_eq] at hs
      rcases hs with (((rfl | rfl) | rfl) | rfl) | rfl <;> exact absurd hchar (by decide)
  · rintro rfl; exact absurd hchar (by decide)

theorem emits_name {n : String} (h : IsName n) : Emits n.toList [⟨.word, n⟩] := by
  obtain ⟨c, cs, hn, hc, hcs⟩ := h
  refine emits_token hn (nameStart_spec hc) rfl fun rest hs => ?_
  obtain ⟨htake, hdrop⟩ := takeWhile_append_of_stops (fun _ h => h) hcs hs
  unfold Lexeme.at?
  rw [if_pos hc]
  simp only [Lexeme.name, htake, hdrop]

theorem emits_symbol {n : String} (h : IsName n) : Emits ("@" ++ n).toList [⟨.symbolName, "@" ++ n⟩] := by
  obtain ⟨c, cs, hn, hc, hcs⟩ := h
  have hchars : ("@" ++ n).toList = '@' :: c :: cs := by rw [String.toList_append, hn]; rfl
  refine emits_token hchars (by decide) rfl fun rest hs => ?_
  obtain ⟨htake, hdrop⟩ := takeWhile_append_of_stops (fun _ h => h) hcs hs
  have start : isNameStart '@' = false := by decide
  unfold Lexeme.at?
  rw [if_neg (by simp [start]), if_neg (by decide), if_pos rfl]
  simp only [List.cons_append, if_pos hc, Lexeme.name, htake, hdrop]

/-! ## Integers -/

theorem digit_nameChar {c : Char} (h : c.isDigit = true) : isNameChar c = true := by
  simp [isNameChar, Char.isAlphanum, h]

theorem digit_spec {c : Char} (h : c.isDigit = true) :
    isNameStart c = false ∧ c ≠ '%' ∧ c ≠ '@' ∧ isTokenSpace c = false ∧ c ≠ '/' := by
  have ne : ∀ d : Char, d.isDigit = false → c ≠ d := by
    rintro d hd rfl; rw [h] at hd; cases hd
  have alpha : c.isAlpha = false := by
    have hd : c.toNat ≤ 57 := by
      simp only [Char.isDigit, Bool.and_eq_true, decide_eq_true_eq, UInt32.le_iff_toNat_le] at h
      exact h.2
    cases ha : c.isAlpha with
    | false => rfl
    | true =>
      have ha : (decide (c.val ≥ 'A'.val ∧ c.val ≤ 'Z'.val) || (decide (c.val ≥ 'a'.val) && decide (c.val ≤ 'z'.val))) =
          true := ha
      simp only [Bool.or_eq_true, Bool.and_eq_true, decide_eq_true_eq, ge_iff_le, UInt32.le_iff_toNat_le] at ha
      rcases ha with ⟨h1, -⟩ | ⟨h1, -⟩
      · exact absurd (Nat.le_trans h1 hd) (by decide)
      · exact absurd (Nat.le_trans h1 hd) (by decide)
  have under := ne '_' (by decide)
  refine ⟨by simp [isNameStart, alpha, under], ne _ (by decide), ne _ (by decide), ?_, ne _ (by decide)⟩
  simp only [isTokenSpace, Bool.or_eq_false_iff, decide_eq_false_iff_not]
  exact ⟨⟨⟨⟨ne _ (by decide), ne _ (by decide)⟩, ne _ (by decide)⟩, ne _ (by decide)⟩, ne _ (by decide)⟩

theorem exponentPart_of_stops {rest : List Char} (hs : Stops rest) : Floating.exponentPart rest = ([], rest) := by
  cases rest with
  | nil => rfl
  | cons c rest =>
    have hc := hs c rfl
    have : ¬ (decide (c = 'e') || decide (c = 'E')) = true := by
      intro h
      rcases (by simpa using h : c = 'e' ∨ c = 'E') with rfl | rfl <;> exact absurd hc (by decide)
    exact if_neg this

theorem signPart_append {cs : List Char} (h : (Floating.signPart cs).2 ≠ []) (rest : List Char) :
    Floating.signPart (cs ++ rest) = ((Floating.signPart cs).1, (Floating.signPart cs).2 ++ rest) := by
  unfold Floating.signPart at h ⊢
  cases cs with
  | nil => exact absurd rfl h
  | cons c cs =>
    rw [List.cons_append]
    split
    · next he => cases he; rfl
    · next he => cases he; rfl
    · next h1 h2 =>
      split
      · next he => cases he; exact absurd rfl (h1 _)
      · next he => cases he; exact absurd rfl (h2 _)
      · rfl

theorem exponentPart_append {cs e rest : List Char} (h : Floating.exponentPart cs = (e, [])) (hs : Stops rest) :
    Floating.exponentPart (cs ++ rest) = (e, rest) := by
  cases cs with
  | nil => cases h; exact exponentPart_of_stops hs
  | cons c cs =>
    simp only [Floating.exponentPart, List.cons_append] at h ⊢
    split at h
    · next hc =>
      split at h
      · cases h
      · next hne =>
        obtain ⟨rfl, hdrop⟩ := Prod.mk.inj h
        have hr : (Floating.signPart cs).2 ≠ [] := fun hr => hne (by rw [hr]; rfl)
        obtain ⟨htake', hdrop'⟩ := takeWhile_append (fun _ => digit_nameChar) (Floating.signPart cs).2 hs
        rw [if_pos hc, signPart_append hr]
        dsimp only
        rw [htake', hdrop', if_neg hne, hdrop]
        rfl
    · cases h

theorem number?_append {cs tail rest : List Char} {k : TokenKind} (h : Lexeme.number? cs = some ⟨k, tail, []⟩)
    (hs : Stops rest) : Lexeme.number? (cs ++ rest) = some ⟨k, tail, rest⟩ := by
  obtain ⟨htake, hdrop⟩ := takeWhile_append (fun _ => digit_nameChar) cs hs
  simp only [Lexeme.number?, htake, hdrop] at h ⊢
  split at h
  · cases h
  · next hne =>
    rw [if_neg hne]
    split at h
    · next r heq =>
      obtain ⟨htake', hdrop'⟩ := takeWhile_append (fun _ => digit_nameChar) r hs
      obtain ⟨rfl, rfl, hend⟩ := Lexeme.mk.inj (Option.some.inj h)
      rw [heq]
      simp only [List.cons_append, htake', hdrop', exponentPart_append (Prod.ext rfl hend) hs]
    · next hpoint =>
      obtain ⟨rfl, rfl, hend⟩ := Lexeme.mk.inj (Option.some.inj h)
      have hexp := exponentPart_append (Prod.ext rfl hend) hs
      split
      · next r heq =>
        cases hd : cs.dropWhile Char.isDigit with
        | nil =>
          rw [hd] at heq
          exact absurd (hs '.' (by rw [show rest = _ from heq]; rfl)) (by decide)
        | cons c cs' =>
          rw [hd] at heq
          cases heq
          exact absurd hd (hpoint _)
      · rw [hexp]

theorem emits_float {n : String} (h : IsFloat n) : Emits n.toList [⟨.float, n⟩] := by
  obtain ⟨c, cs, hn, hat⟩ := h
  have other : ∀ {k : TokenKind} {t r : List Char}, k ≠ .float → some (Lexeme.mk k t r) ≠ some ⟨.float, cs, []⟩ := by
    intro k t r hk he; cases he; exact hk rfl
  unfold Lexeme.at? at hat
  -- only a digit or a minus sign starts a float; every other start gives a token of another kind
  split at hat
  · exact absurd hat (other nofun)
  next hstart =>
  split at hat
  · dsimp only at hat
    split at hat
    · cases hat
    · exact absurd hat (other nofun)
  next hpercent =>
  split at hat
  · split at hat
    · split at hat
      · exact absurd hat (other nofun)
      · cases hat
    · cases hat
  next hsign =>
  split at hat
  · next hdigit =>
    obtain ⟨found, hfound, he⟩ := Option.map_eq_some_iff.mp hat
    obtain ⟨k, t, r⟩ := found
    obtain ⟨rfl, htail, rfl⟩ := Lexeme.mk.inj he
    refine emits_token hn (digit_spec hdigit).2.2.2 rfl fun rest hs => ?_
    have := number?_append hfound hs
    unfold Lexeme.at?
    rw [if_neg hstart, if_neg hpercent, if_neg hsign, if_pos hdigit, ← List.cons_append, this]
    simp only [Option.map_some, htail]
  next hdigit =>
  split at hat
  · next hminus =>
    subst hminus
    split at hat
    · exact absurd hat (other nofun)
    · next harrow =>
      refine emits_token hn (by decide) rfl fun rest hs => ?_
      have := number?_append hat hs
      unfold Lexeme.at?
      rw [if_neg hstart, if_neg hpercent, if_neg hsign, if_neg hdigit, if_pos rfl]
      split
      · next heq =>
        cases cs with
        | nil => cases hat
        | cons d ds => cases heq; exact absurd rfl (harrow ds)
      · exact this
  split at hat
  · obtain ⟨⟨body, r⟩, -, he⟩ := Option.map_eq_some_iff.mp hat
    cases he
  · obtain ⟨k, hk, he⟩ := Option.map_eq_some_iff.mp hat
    cases he
    unfold TokenKind.ofPunctuation? at hk
    split at hk <;> cases hk

theorem number?_digits {ds rest : List Char} (hne : ds ≠ []) (hds : ∀ c ∈ ds, c.isDigit = true) (hs : Stops rest) :
    Lexeme.number? (ds ++ rest) = some ⟨.int, ds, rest⟩ := by
  refine number?_append ?_ hs
  obtain ⟨htake, hdrop⟩ := takeWhile_append_of_stops (fun _ => digit_nameChar) hds .nil
  rw [List.append_nil] at htake hdrop
  simp only [Lexeme.number?, htake, hdrop]
  rw [if_neg (by simpa using hne)]
  simp [Floating.exponentPart]

theorem emits_nat (n : Nat) : Emits (toString n).toList [⟨.int, toString n⟩] := by
  have hdigits : ∀ c ∈ Nat.toDigits 10 n, c.isDigit = true :=
    fun _ => Nat.isDigit_of_mem_toDigits (by decide) (by decide)
  cases hd : Nat.toDigits 10 n with
  | nil => exact absurd hd Nat.toDigits_ne_nil
  | cons d ds =>
    rw [hd] at hdigits
    obtain ⟨hstart, hne1, hne2, hspace⟩ := digit_spec (hdigits d List.mem_cons_self)
    refine emits_token (by rw [Nat.toString_eq_repr, Nat.toList_repr, hd]) hspace rfl fun rest hs => ?_
    unfold Lexeme.at?
    rw [if_neg (by simp [hstart]), if_neg hne1, if_neg hne2, if_pos (hdigits d List.mem_cons_self),
      show d :: (ds ++ rest) = d :: ds ++ rest from rfl, number?_digits (List.cons_ne_nil _ _) hdigits hs]
    rfl

theorem emits_int (n : Int) : Emits (toString n).toList [⟨.int, toString n⟩] := by
  rw [show toString n = n.repr from rfl, Int.repr_eq_if]
  split
  · exact emits_nat _
  · generalize (-n).toNat = m
    have hdigits : ∀ c ∈ Nat.toDigits 10 m, c.isDigit = true :=
      fun _ => Nat.isDigit_of_mem_toDigits (by decide) (by decide)
    have hchars : ("-" ++ m.repr).toList = '-' :: Nat.toDigits 10 m := by
      rw [String.toList_append, Nat.toList_repr]; rfl
    refine emits_token hchars (by decide) rfl fun rest hs => ?_
    have start : isNameStart '-' = false := by decide
    unfold Lexeme.at?
    rw [if_neg (by simp [start]), if_neg (by decide), if_neg (by decide), if_neg (by decide), if_pos rfl]
    split
    · next heq =>
      cases hd : Nat.toDigits 10 m with
      | nil => exact absurd hd Nat.toDigits_ne_nil
      | cons d ds =>
        rw [hd] at heq hdigits
        cases heq
        exact absurd (hdigits '>' List.mem_cons_self) (by decide)
    · exact number?_digits Nat.toDigits_ne_nil hdigits hs

theorem natOfDigits_toDigits (n : Nat) : Floating.natOfDigits (Nat.toDigits 10 n) = n := by
  refine Eq.trans ?_ (Nat.ofDigitChars_ten_toDigits (n := n))
  rw [Nat.ofDigitChars_eq_foldl]; rfl

theorem natOfDigits_lt {ds : List Char} (h : ∀ c ∈ ds, c.isDigit = true) :
    Floating.natOfDigits ds < 10 ^ ds.length := by
  have from_ : ∀ a : Nat, ds.foldl (fun n c => 10 * n + (c.toNat - 48)) a < (a + 1) * 10 ^ ds.length := by
    induction ds with
    | nil => intro a; simp
    | cons c ds ih =>
      intro a
      have hc : c.toNat ≤ 57 := by
        have := h c List.mem_cons_self
        simp only [Char.isDigit, Bool.and_eq_true, decide_eq_true_eq, UInt32.le_iff_toNat_le] at this
        exact this.2
      have step : (10 * a + (c.toNat - 48) + 1) * 10 ^ ds.length ≤ (10 * a + 10) * 10 ^ ds.length :=
        Nat.mul_le_mul_right _ (by omega)
      have := ih (fun d hd => h d (List.mem_cons_of_mem _ hd)) (10 * a + (c.toNat - 48))
      rw [List.foldl_cons, List.length_cons, Nat.pow_succ]
      calc _ < (10 * a + (c.toNat - 48) + 1) * 10 ^ ds.length := this
        _ ≤ (10 * a + 10) * 10 ^ ds.length := step
        _ = (a + 1) * (10 ^ ds.length * 10) := by
          rw [show 10 * a + 10 = (a + 1) * 10 by omega, Nat.mul_assoc, Nat.mul_comm 10]
  simpa [Floating.natOfDigits] using from_ 0

theorem splitSign_digits {ds : List Char} (h : ∀ c ∈ ds, c.isDigit = true) : Floating.splitSign ds = (false, ds) := by
  unfold Floating.splitSign
  split
  · exact absurd (h '-' List.mem_cons_self) (by decide)
  · exact absurd (h '+' List.mem_cons_self) (by decide)
  · rfl

theorem intLiteral?_toString {n : Int} (h : FewDigits n) : intLiteral? (toString n) = some n := by
  have few : ∀ m : Nat, m < 10 ^ maxIntegerDigits → ¬ maxIntegerDigits < (Nat.toDigits 10 m).length := fun m hm =>
    Nat.not_lt.mpr ((Nat.length_toDigits_le_iff (by decide) (by decide)).mpr hm)
  have sign : ∀ m, Floating.splitSign (Nat.toDigits 10 m) = (false, Nat.toDigits 10 m) := fun m =>
    splitSign_digits fun _ => Nat.isDigit_of_mem_toDigits (by decide) (by decide)
  unfold FewDigits at h
  rw [show toString n = n.repr from rfl, Int.repr_eq_if]
  split
  · next hn =>
    simp only [intLiteral?, Nat.toList_repr, sign, Json.signed, natOfDigits_toDigits]
    rw [if_neg (few _ (by omega))]
    exact congrArg some (Int.toNat_of_nonneg hn)
  · next hn =>
    have hchars : ("-" ++ (-n).toNat.repr).toList = '-' :: Nat.toDigits 10 (-n).toNat := by
      rw [String.toList_append, Nat.toList_repr]; rfl
    simp only [intLiteral?, hchars, Floating.splitSign, Json.signed, natOfDigits_toDigits]
    rw [if_neg (few _ (by omega))]
    exact congrArg some (show -(((-n).toNat : Nat) : Int) = n by omega)

theorem fewDigits_of_intLiteral? {d : String} {n : Int} (hd : IsInteger d) (h : intLiteral? d = some n) :
    FewDigits n := by
  have few : ∀ (ds : List Char) (neg : Bool), (∀ c ∈ ds, c.isDigit = true) → ds.length ≤ maxIntegerDigits →
      FewDigits (Json.signed neg ds) := by
    intro ds neg hds hlen
    have hlt : Floating.natOfDigits ds < 10 ^ maxIntegerDigits :=
      Nat.lt_of_lt_of_le (natOfDigits_lt hds) (Nat.pow_le_pow_right (by decide) hlen)
    have : (Json.signed neg ds).natAbs = Floating.natOfDigits ds := by
      unfold Json.signed; cases neg <;> simp
    unfold FewDigits
    rw [this]; exact hlt
  obtain ⟨ds, htext, hds⟩ := hd
  unfold intLiteral? at h
  rcases htext with htext | htext
  · rw [htext, splitSign_digits hds] at h
    dsimp only at h
    split at h
    · cases h
    · next hlen => cases h; exact few ds false hds (Nat.not_lt.mp hlen)
  · rw [htext] at h
    simp only [Floating.splitSign] at h
    split at h
    · cases h
    · next hlen => cases h; exact few ds true hds (Nat.not_lt.mp hlen)

end GateAsm
