import Mathlib.Data.List.TakeWhile
import GateAsm.Proofs.Tokens.Languages

/-!
# A text is its tokens and the gaps between them

The lexer passes over the text once and carries the place along. `TokenStream.Partitions` says what it finds
without a lexer: where each token stands, what it is, and what lies between the tokens.
`StrayCharacter.Blocks` says the same of the place at which it gives up.
-/

namespace GateAsm

/-! ## Places -/

/-- The place behind the first `n` characters of a text. The line counts the line feeds in front of it, the
column the characters behind the last of them. -/
def Location.inText (cs : List Char) (n : Nat) : Location :=
  ⟨(cs.take n).count '\n' + 1, ((cs.take n).reverse.takeWhile (· != '\n')).length + 1, n⟩

theorem Location.advance_start (cs : List Char) : Location.start.advance cs = .inText cs cs.length := by
  rw [inText, List.take_length]
  induction cs using List.reverseRecOn with
  | nil => rfl
  | append_singleton cs c ih =>
    rw [advance_append, ih, advance_cons, advance_nil, step, List.reverse_append, List.reverse_singleton,
      List.singleton_append, List.count_append, List.length_append]
    split
    · next hc => subst hc; rfl
    · next hc =>
      rw [List.takeWhile_cons_of_pos (by simpa using hc), List.count_singleton, if_neg (by simpa using hc)]
      rfl

theorem Location.inText_append (cs ds : List Char) :
    Location.inText (cs ++ ds) cs.length = Location.start.advance cs := by
  rw [advance_start, inText, inText, List.take_left, List.take_length]

/-! ## Gaps -/

/-- Blanks and whole comments lead from the front of a text to the rest of it. A comment ends in front of a
line feed or with the text. -/
inductive Skips : List Char → List Char → Prop
  | none (cs : List Char) : Skips cs cs
  | blank {c : Char} {cs rest : List Char} : isTokenSpace c = true → Skips cs rest → Skips (c :: cs) rest
  | comment {body cs rest : List Char} : '\n' ∉ body → (∀ c ∈ cs.head?, c = '\n') → Skips cs rest →
      Skips ('/' :: '/' :: (body ++ cs)) rest

section
variable {c : Char} {cs g rest front back : List Char}

theorem head?_dropWhile_ne (cs : List Char) : ∀ d ∈ (cs.dropWhile (· != '\n')).head?, d = '\n' := by
  induction cs with
  | nil => rintro d ⟨⟩
  | cons c cs ih =>
    rw [List.dropWhile_cons]
    split
    · exact ih
    · next hc => rintro d ⟨⟩; simpa using hc

theorem notMem_takeWhile_ne (cs : List Char) : '\n' ∉ cs.takeWhile (· != '\n') := fun h => by
  simpa using takeWhile_passes _ cs _ h

theorem gapAt?_sound (h : gapAt? c cs = some (g, rest)) :
    g ++ rest = c :: cs ∧ ∀ {r}, Skips rest r → Skips (c :: cs) r := by
  unfold gapAt? at h
  split at h
  · next hc => cases h; exact ⟨rfl, .blank hc⟩
  split at h
  · next hc =>
    split at h
    · next ds =>
      cases h
      have htext := List.takeWhile_append_dropWhile (p := (· != '\n')) (l := ds)
      refine ⟨?_, fun hr => ?_⟩
      · rw [List.cons_append, List.cons_append, htext, hc]
      · rw [hc]
        have := Skips.comment (notMem_takeWhile_ne ds) (head?_dropWhile_ne ds) hr
        rwa [htext] at this
    · cases h
  · cases h

theorem gapAt?_front (h : gapAt? c cs = some (g, front ++ back)) :
    ∃ ds, c :: ds = g ++ front ∧ gapAt? c ds = some (g, front) := by
  unfold gapAt? at h
  split at h
  · next hc =>
    obtain ⟨rfl, -⟩ := Prod.mk.inj (Option.some.inj h)
    exact ⟨front, rfl, by simp [gapAt?, hc]⟩
  next hspace =>
  split at h
  · next hc =>
    subst hc
    split at h
    · next ds =>
      obtain ⟨rfl, hdrop⟩ := Prod.mk.inj (Option.some.inj h)
      have hhead : front = [] ∨ ∃ r, front = '\n' :: r := by
        cases front with
        | nil => exact .inl rfl
        | cons d front => exact .inr ⟨front, by rw [head?_dropWhile_ne ds d (by rw [hdrop]; rfl)]⟩
      have hpass : ∀ d ∈ ds.takeWhile (· != '\n'), (d != '\n') = true := takeWhile_passes _ _
      have hstop : (ds.takeWhile (· != '\n') ++ front).takeWhile (· != '\n') = ds.takeWhile (· != '\n') ∧
          (ds.takeWhile (· != '\n') ++ front).dropWhile (· != '\n') = front := by
        rcases hhead with rfl | ⟨r, rfl⟩
        · rw [List.append_nil, List.takeWhile_eq_self_iff.mpr hpass, List.dropWhile_eq_nil_iff.mpr hpass]
          exact ⟨rfl, rfl⟩
        · exact takeWhile_stops hpass rfl r
      refine ⟨'/' :: (ds.takeWhile (· != '\n') ++ front), rfl, ?_⟩
      unfold gapAt?
      rw [if_neg hspace, if_pos rfl]
      simp only [hstop.1, hstop.2]
    · cases h
  · cases h

theorem skips_of_gapAt?_eq_none (h : gapAt? c cs = none) (hs : Skips (c :: cs) rest) : rest = c :: cs := by
  cases hs with
  | none => rfl
  | blank hc => unfold gapAt? at h; rw [if_pos hc] at h; cases h
  | comment => cases h

theorem gapAt?_eq_none_of_at? {found : Lexeme} (h : Lexeme.at? c cs = some found) (ds : List Char) :
    gapAt? c ds = none := by
  have other : ∀ {d : Char}, d ∈ [' ', '\t', '\x0c', '\r', '\n', '/'] → c ≠ d := by
    rintro d hd rfl
    simp only [List.mem_cons, List.not_mem_nil, or_false] at hd
    rcases hd with rfl | rfl | rfl | rfl | rfl | rfl <;> cases h
  have hspace : isTokenSpace c = false := by
    simp only [isTokenSpace, Bool.or_eq_false_iff, decide_eq_false_iff_not]
    exact ⟨⟨⟨⟨other (by decide), other (by decide)⟩, other (by decide)⟩, other (by decide)⟩, other (by decide)⟩
  unfold gapAt?
  rw [if_neg (by simp [hspace]), if_neg (other (by decide))]

/-- A token is found again in a text that ends behind it: no other front of that text is as long. -/
theorem Lexeme.at?_front {found : Lexeme} (h : at? c cs = some found) (hrest : found.rest = front ++ back) :
    at? c (found.tail ++ front) = some { found with rest := front } := by
  obtain ⟨happ, hmem⟩ := at?_sound h
  obtain ⟨again, hagain, hle, hkind⟩ := at?_longest hmem front
  obtain ⟨happ', hmem'⟩ := at?_sound hagain
  obtain ⟨found', hfound', hge, -⟩ := at?_longest hmem' (again.rest ++ back)
  have hcs : again.tail ++ (again.rest ++ back) = cs := by
    rw [← List.append_assoc, happ', List.append_assoc, ← hrest, happ]
  rw [hcs, h] at hfound'
  cases hfound'
  have hlen : found.tail.length = again.tail.length := Nat.le_antisymm hle hge
  obtain ⟨htail, hfront⟩ := List.append_inj happ' hlen.symm
  rw [hagain, ← hkind hlen, ← htail, ← hfront]

end

/-! ## What the lexer finds -/

def Token.finish (t : Token) : Nat := t.location.offset + t.text.length

structure TokenStream.PartitionsFrom (n : Nat) (cs : List Char) (s : TokenStream) : Prop where
  behind : ∀ t ∈ s.tokens, n ≤ t.location.offset
  ordered : s.tokens.Pairwise fun t u => t.location.offset < u.location.offset ∧ t.finish ≤ u.location.offset
  slice : ∀ t ∈ s.tokens, (cs.drop t.location.offset).take t.text.length = t.text.toList
  spelled : ∀ t ∈ s.tokens, t.text.toList ∈ t.kind.language
  proper : ∀ t ∈ s.tokens, t.kind ≠ .endOfText
  longest : ∀ t ∈ s.tokens, ∀ (k : TokenKind), ∀ w ∈ k.language,
    w <+: cs.drop t.location.offset → w.length ≤ t.text.length
  gaps : ∀ g ∈ (n :: s.tokens.map Token.finish).zip (s.tokens.map (·.location.offset) ++ [cs.length]),
    g.1 ≤ g.2 ∧ Skips (cs.drop g.1) (cs.drop g.2)
  located : ∀ t ∈ s.toList, t.location = .inText cs t.location.offset
  ends : s.endLocation.offset = cs.length

/-- The tokens are the text `cs`, up to gaps in front of, between and behind them. Each token is the longest
that starts at its place. -/
def TokenStream.Partitions (s : TokenStream) (cs : List Char) : Prop := s.PartitionsFrom 0 cs

/-- The character stands in the text `cs`, what is in front of it is tokens and gaps, and neither a token nor
a gap starts with it. -/
structure StrayCharacter.Blocks (e : StrayCharacter) (cs : List Char) : Prop where
  there : cs[e.location.offset]? = some e.char
  located : e.location = .inText cs e.location.offset
  front : ∃ s, TokenStream.ofText (String.ofList (cs.take e.location.offset)) = .ok s ∧
    s.Partitions (cs.take e.location.offset)
  noToken : ∀ (k : TokenKind), ∀ w ∈ k.language, ¬ w <+: cs.drop e.location.offset
  noGap : ∀ rest, Skips (cs.drop e.location.offset) rest → rest = cs.drop e.location.offset

namespace TokenStream
variable {before cs : List Char} {c : Char} {s : TokenStream}

theorem PartitionsFrom.nil (before : List Char) :
    PartitionsFrom before.length before ⟨[], Location.start.advance before⟩ where
  behind := nofun
  ordered := .nil
  slice := nofun
  spelled := nofun
  proper := nofun
  longest := nofun
  gaps := by
    intro g hg
    cases List.mem_singleton.mp hg
    exact ⟨Nat.le_refl _, .none _⟩
  located := by
    intro t ht
    cases List.mem_singleton.mp ht
    show Location.start.advance before = .inText before (Location.start.advance before).offset
    rw [Location.offset_advance, Location.advance_start]
    exact congrArg _ (Nat.zero_add _).symm
  ends := (Location.offset_advance _ _).trans (Nat.zero_add _)

theorem PartitionsFrom.gap {n m : Nat} (h : s.PartitionsFrom m cs) (hn : n ≤ m)
    (hs : ∀ {r}, Skips (cs.drop m) r → Skips (cs.drop n) r) : s.PartitionsFrom n cs :=
  { h with
    behind := fun t ht => Nat.le_trans hn (h.behind t ht)
    gaps := by
      have hgaps := h.gaps
      have first : ∀ {x : Nat} {xs ys : List Nat} {y : Nat} {P : Nat × Nat → Prop},
          (∀ g ∈ (x :: xs).zip (y :: ys), P g) ↔ P (x, y) ∧ ∀ g ∈ xs.zip ys, P g := by
        intros
        rw [List.zip_cons_cons, List.forall_mem_cons]
      cases ht : s.tokens with
      | nil =>
        rw [ht] at hgaps
        obtain ⟨⟨hle, hskip⟩, hrest⟩ := first.mp hgaps
        exact first.mpr ⟨⟨Nat.le_trans hn hle, hs hskip⟩, hrest⟩
      | cons t ts =>
        rw [ht] at hgaps
        obtain ⟨⟨hle, hskip⟩, hrest⟩ := first.mp hgaps
        exact first.mpr ⟨⟨Nat.le_trans hn hle, hs hskip⟩, hrest⟩ }

theorem PartitionsFrom.token {found : Lexeme} (hfound : Lexeme.at? c cs = some found)
    (h : s.PartitionsFrom (before ++ c :: found.tail).length (before ++ c :: cs)) :
    PartitionsFrom before.length (before ++ c :: cs)
      ⟨⟨found.kind, String.ofList (c :: found.tail), Location.start.advance before⟩ :: s.tokens, s.endLocation⟩ := by
  obtain ⟨happ, hmem⟩ := Lexeme.at?_sound hfound
  have hoffset : (Location.start.advance before).offset = before.length :=
    (Location.offset_advance _ _).trans (Nat.zero_add _)
  have hlength : (String.ofList (c :: found.tail)).length = found.tail.length + 1 := by
    rw [String.length_ofList]; rfl
  have hdrop : (before ++ c :: cs).drop before.length = c :: cs := List.drop_left
  have hfinish : Token.finish ⟨found.kind, String.ofList (c :: found.tail), Location.start.advance before⟩ =
      (before ++ c :: found.tail).length := by
    rw [Token.finish, hoffset, hlength, List.length_append]; rfl
  constructor
  · refine List.forall_mem_cons.mpr ⟨Nat.le_of_eq hoffset.symm, fun t ht => ?_⟩
    exact Nat.le_trans (by simp) (h.behind t ht)
  · refine List.pairwise_cons.mpr ⟨fun t ht => ⟨?_, ?_⟩, h.ordered⟩
    · rw [hoffset]
      exact Nat.lt_of_lt_of_le (by simp) (h.behind t ht)
    · rw [hfinish]
      exact h.behind t ht
  · refine List.forall_mem_cons.mpr ⟨?_, h.slice⟩
    rw [hoffset, hlength, hdrop, String.toList_ofList, List.take_succ_cons, ← happ, List.take_left]
  · exact List.forall_mem_cons.mpr ⟨by rw [String.toList_ofList]; exact hmem, h.spelled⟩
  · refine List.forall_mem_cons.mpr ⟨fun hk => ?_, h.proper⟩
    rw [show found.kind = .endOfText from hk] at hmem
    exact Language.notMem_zero _ hmem
  -- no longer word of any kind stands at the front, since the lexer would have taken it
  · refine List.forall_mem_cons.mpr ⟨fun k w hw hp => ?_, h.longest⟩
    rw [hoffset, hdrop] at hp
    rw [hlength]
    cases w with
    | nil => exact Nat.zero_le _
    | cons d w =>
      obtain ⟨rest, hrest⟩ := hp
      obtain ⟨rfl, rfl⟩ := List.cons.inj hrest
      obtain ⟨found', hfound', hle, -⟩ := Lexeme.at?_longest hw rest
      obtain rfl : found = found' := Option.some.inj (hfound.symm.trans hfound')
      exact Nat.succ_le_succ hle
  · intro g hg
    rcases List.mem_cons.mp hg with rfl | hg
    · refine ⟨Nat.le_of_eq hoffset.symm, ?_⟩
      show Skips (List.drop before.length _) (List.drop (Location.start.advance before).offset _)
      rw [hoffset]
      exact .none _
    · rw [List.map_cons, hfinish] at hg
      exact h.gaps g hg
  · refine List.forall_mem_cons.mpr ⟨?_, h.located⟩
    rw [hoffset, Location.inText_append]
  · exact h.ends

theorem partitionsFrom_of_lexFrom {fuel : Nat} (h : lexFrom fuel (Location.start.advance before) cs = .ok s) :
    s.PartitionsFrom before.length (before ++ cs) := by
  induction fuel generalizing before cs s with
  | zero =>
    cases cs with
    | nil => cases h; rw [List.append_nil]; exact .nil before
    | cons c cs => cases h
  | succ fuel ih =>
    cases cs with
    | nil => cases h; rw [List.append_nil]; exact .nil before
    | cons c cs =>
      simp only [lexFrom] at h
      split at h
      · next g rest hg =>
        obtain ⟨happ, hskips⟩ := gapAt?_sound hg
        rw [← Location.advance_append] at h
        have ih := ih h
        rw [List.append_assoc, happ] at ih
        refine ih.gap (by simp) fun hr => ?_
        rw [List.drop_left]
        rw [← happ, ← List.append_assoc, List.drop_left] at hr
        exact hskips hr
      · split at h
        · cases h
        · next found hfound =>
          cases hrest : lexFrom fuel ((Location.start.advance before).advance (c :: found.tail)) found.rest with
          | error e => rw [hrest] at h; cases h
          | ok s' =>
          rw [hrest] at h
          cases h
          rw [← Location.advance_append] at hrest
          have ih := ih hrest
          rw [List.append_assoc, List.cons_append, (Lexeme.at?_sound hfound).1] at ih
          exact .token hfound ih

/-- Where the lexer gives up, the front of the text is tokens and gaps, and nothing starts behind it. -/
theorem lexes_of_lexFrom_error {fuel : Nat} {l : Location} {e : StrayCharacter} (h : lexFrom fuel l cs = .error e)
    (hf : cs.length ≤ fuel) :
    ∃ front back ws, cs = front ++ e.char :: back ∧ e.location = l.advance front ∧ Lexes front ws ∧
      gapAt? e.char back = none ∧ Lexeme.at? e.char back = none := by
  induction fuel generalizing l cs with
  | zero =>
    cases cs with
    | nil => cases h
    | cons c cs => cases hf
  | succ fuel ih =>
    cases cs with
    | nil => cases h
    | cons c cs =>
      have hf := Nat.le_of_succ_le_succ hf
      simp only [lexFrom] at h
      split at h
      · next g rest hg =>
        obtain ⟨front, back, ws, rfl, hl, hlex, hnone⟩ := ih h (Nat.le_trans (gapAt?_suffix hg).length_le hf)
        obtain ⟨ds, hds, hgap⟩ := gapAt?_front hg
        refine ⟨c :: ds, back, ws, ?_, ?_, .gap hgap hlex, hnone⟩
        · rw [hds, List.append_assoc, (gapAt?_sound hg).1]
        · rw [hl, hds, Location.advance_append]
      · next hg =>
        split at h
        · next hnone => cases h; exact ⟨[], cs, [], rfl, rfl, .nil, hg, hnone⟩
        · next found hfound =>
          have hsound := (Lexeme.at?_sound hfound).1
          have hlen : found.rest.length ≤ fuel :=
            Nat.le_trans (Lexeme.at?_spec hfound .start).1.length_le hf
          cases hlexed : lexFrom fuel (l.advance (c :: found.tail)) found.rest with
          | ok s' => rw [hlexed] at h; cases h
          | error e' =>
          rw [hlexed] at h
          cases h
          obtain ⟨front, back, ws, hrest, hl, hlex, hnone⟩ := ih hlexed hlen
          refine ⟨c :: found.tail ++ front, back, _, ?_, ?_, .token ?_ (Lexeme.at?_front hfound hrest) hlex, hnone⟩
          · rw [List.append_assoc, ← hrest, List.cons_append, hsound]
          · rw [hl, Location.advance_append]
          · exact gapAt?_eq_none_of_at? hfound _

/-- **Each text is partitioned, or blocked by a character**: if the lexer answers, its tokens and the gaps
between them are the text, each token stands where it says, and the last one behind the text. If it fails, it
names the first character at which neither a token nor a gap starts. -/
theorem ofText_partitions (text : String) :
    match ofText text with
    | .ok s => s.Partitions text.toList
    | .error e => e.Blocks text.toList := by
  have partitions : ∀ {text : String} {s : TokenStream}, ofText text = .ok s → s.Partitions text.toList := fun h =>
    @partitionsFrom_of_lexFrom [] _ _ _ h
  cases h : ofText text with
  | ok s => exact partitions h
  | error e =>
    obtain ⟨front, back, ws, htext, hl, hlex, hgap, htoken⟩ :=
      lexes_of_lexFrom_error h (Nat.le_of_eq String.length_toList)
    have hoffset : e.location.offset = front.length := by
      rw [hl, Location.offset_advance]
      exact Nat.zero_add _
    have hback : text.toList.drop front.length = e.char :: back := by rw [htext, List.drop_left]
    constructor
    · rw [hoffset, htext, List.getElem?_append_right (Nat.le_refl _), Nat.sub_self, List.getElem?_cons_zero]
    · rw [hoffset, htext, Location.inText_append, hl]
    · rw [hoffset, htext, List.take_left]
      obtain ⟨s, hs, -⟩ := @ofText_of_lexes (String.ofList front) ws (by rwa [String.toList_ofList])
      exact ⟨s, hs, by simpa using partitions hs⟩
    · rw [hoffset, hback]
      rintro k w hw ⟨rest, hrest⟩
      obtain ⟨d, v, rfl⟩ := List.exists_cons_of_ne_nil (ne_nil_of_mem_language hw)
      obtain ⟨rfl, rfl⟩ := List.cons.inj hrest
      obtain ⟨found, hfound, -⟩ := Lexeme.at?_longest hw rest
      rw [show v.append rest = v ++ rest from rfl, hfound] at htoken
      cases htoken
    · rw [hoffset, hback]
      exact fun _ => skips_of_gapAt?_eq_none hgap

end TokenStream

end GateAsm
