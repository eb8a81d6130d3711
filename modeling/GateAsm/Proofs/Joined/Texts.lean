import GateAsm.Proofs.Tokens.Spaced

/-!
# Texts below each other

A line feed ends every token and every comment. So the tokens of two texts with a line feed between them are those
of the first text, and behind them those of the second one at places further down (`TokenStream.ofText_joined`).
-/

namespace GateAsm

/-! ## Places further down -/

/-- Where a place of a text is when another text stands in lines above it. -/
def Location.below (front : List Char) (l : Location) : Location :=
  ⟨l.line + (front.count '\n' + 1), l.column, l.offset + (front.length + 1)⟩

/-- A way to move places that keeps the steps from one character to the next. -/
def Location.Shifts (f : Location → Location) : Prop := ∀ l c, f (l.step c) = (f l).step c

theorem Location.Shifts.advance {f : Location → Location} (hf : Shifts f) (l : Location) (cs : List Char) :
    f (l.advance cs) = (f l).advance cs := by
  induction cs generalizing l with
  | nil => rfl
  | cons c cs ih => rw [advance_cons, advance_cons, ih, hf]

theorem Location.shifts_below (front : List Char) : Shifts (below front) := by
  intro l c
  unfold step
  split
  · simp only [below, mk.injEq, true_and]
    omega
  · simp only [below, mk.injEq, true_and]
    omega

theorem Location.below_start (front : List Char) : start.below front = (start.advance front).step '\n' := by
  rw [advance_start, inText, List.take_length, step, if_pos rfl]
  simp only [below, start, mk.injEq, true_and]
  omega

def Token.moved (f : Location → Location) (t : Token) : Token := { t with location := f t.location }

@[simp] theorem Token.kind_moved (f : Location → Location) (t : Token) : (t.moved f).kind = t.kind := rfl
@[simp] theorem Token.text_moved (f : Location → Location) (t : Token) : (t.moved f).text = t.text := rfl
@[simp] theorem Token.location_moved (f : Location → Location) (t : Token) : (t.moved f).location = f t.location := rfl

def TokenStream.moved (f : Location → Location) (s : TokenStream) : TokenStream :=
  ⟨s.tokens.map (Token.moved f), f s.endLocation⟩

/-- The tokens of one text and then those of another one that ends where the text ends. -/
def TokenStream.append (s back : TokenStream) : TokenStream := ⟨s.tokens ++ back.tokens, back.endLocation⟩

/-! ## Tokens in front of a line feed -/

section
variable {c : Char} {cs g rest : List Char} {found : Lexeme}

theorem gapAt?_newline (back : List Char) (h : gapAt? c cs = some (g, rest)) :
    gapAt? c (cs ++ '\n' :: back) = some (g, rest ++ '\n' :: back) := by
  have stop : ∀ ds : List Char, (ds ++ '\n' :: back).takeWhile (· != '\n') = ds.takeWhile (· != '\n') ∧
      (ds ++ '\n' :: back).dropWhile (· != '\n') = ds.dropWhile (· != '\n') ++ '\n' :: back := by
    intro ds
    induction ds with
    | nil => exact ⟨rfl, rfl⟩
    | cons d ds ih =>
      simp only [List.cons_append, List.takeWhile_cons, List.dropWhile_cons]
      by_cases hd : (d != '\n') = true
      · simp only [if_pos hd, ih, and_self]
      · simp only [if_neg hd, List.cons_append, and_self]
  unfold gapAt? at h ⊢
  split at h
  · next hc =>
    cases h
    rw [if_pos hc]
  next hspace =>
  split at h
  · next hc =>
    rw [if_neg hspace, if_pos hc]
    split at h
    · next ds =>
      cases h
      simp only [List.cons_append, stop]
    · cases h
  · cases h

/-- No token goes on behind a line feed. -/
theorem Lexeme.at?_newline (back : List Char) (h : at? c cs = some found) :
    at? c (cs ++ '\n' :: back) = some { found with rest := found.rest ++ '\n' :: back } := by
  obtain ⟨happ, hmem⟩ := at?_sound h
  obtain ⟨again, hagain, hle, hkind⟩ := at?_longest hmem (found.rest ++ '\n' :: back)
  obtain ⟨happ', hmem'⟩ := at?_sound hagain
  have whole : found.tail ++ (found.rest ++ '\n' :: back) = cs ++ '\n' :: back := by rw [← List.append_assoc, happ]
  -- what is found again ends in front of the line feed, so that it is found in the text alone as well
  obtain ⟨r, hr, hrest⟩ : ∃ r, again.tail ++ r = cs ∧ again.rest = r ++ '\n' :: back := by
    rcases List.append_eq_append_iff.mp (happ'.trans whole) with ⟨v, hcs, hrest⟩ | ⟨v, htail, hback⟩
    · exact ⟨v, hcs.symm, hrest⟩
    · cases v with
      | nil => exact ⟨[], by rw [List.append_nil, htail, List.append_nil], hback.symm⟩
      | cons d v =>
        obtain ⟨rfl, -⟩ := List.cons.inj hback
        have inside : '\n' ∈ c :: again.tail := by rw [htail]; simp
        exact absurd inside (newline_notMem_of_mem_language hmem')
  obtain ⟨first, hfirst, hge, -⟩ := at?_longest hmem' r
  rw [hr, h] at hfirst
  cases hfirst
  have hlen : found.tail.length = again.tail.length := Nat.le_antisymm hle hge
  obtain ⟨htail, hfront⟩ := List.append_inj (happ.trans hr.symm) hlen
  rw [← whole, hagain, hfront, ← hrest, htail, ← hkind hlen]

end

/-! ## The lexer -/

namespace TokenStream
variable {fuel fuel' : Nat} {l : Location} {cs back : List Char} {s : TokenStream}

theorem lexFrom_mono (h : lexFrom fuel l cs = .ok s) (hle : fuel ≤ fuel') : lexFrom fuel' l cs = .ok s := by
  induction fuel generalizing fuel' l cs s with
  | zero =>
    cases cs with
    | nil => cases h; cases fuel' <;> rfl
    | cons c cs => cases h
  | succ fuel ih =>
    obtain ⟨fuel', rfl⟩ : ∃ n, fuel' = n + 1 := ⟨fuel' - 1, by omega⟩
    have hle := Nat.le_of_succ_le_succ hle
    cases cs with
    | nil => cases h; rfl
    | cons c cs =>
      simp only [lexFrom] at h ⊢
      split at h
      · exact ih h hle
      · split at h
        · cases h
        · next found _ =>
          cases hrest : lexFrom fuel (l.advance (c :: found.tail)) found.rest with
          | error e => rw [hrest] at h; cases h
          | ok s' =>
            rw [hrest] at h
            rw [ih hrest hle]
            exact h

theorem lexFrom_moved {f : Location → Location} (hf : Location.Shifts f) (h : lexFrom fuel l cs = .ok s) :
    lexFrom fuel (f l) cs = .ok (s.moved f) := by
  induction fuel generalizing l cs s with
  | zero =>
    cases cs with
    | nil => cases h; rfl
    | cons c cs => cases h
  | succ fuel ih =>
    cases cs with
    | nil => cases h; rfl
    | cons c cs =>
      simp only [lexFrom] at h ⊢
      split at h
      · rw [← hf.advance]
        exact ih h
      · split at h
        · cases h
        · next found _ =>
          cases hrest : lexFrom fuel (l.advance (c :: found.tail)) found.rest with
          | error e => rw [hrest] at h; cases h
          | ok s' =>
            rw [hrest] at h
            cases h
            rw [← hf.advance, ih hrest]
            rfl

theorem lexFrom_gap (h : lexFrom fuel (l.step '\n') back = .ok s) (hlt : fuel < fuel') :
    lexFrom fuel' l ('\n' :: back) = .ok s := by
  obtain ⟨n, rfl⟩ : ∃ n, fuel' = n + 1 := ⟨fuel' - 1, by omega⟩
  have mono : lexFrom n (l.step '\n') back = .ok s := lexFrom_mono h (Nat.le_of_lt_succ hlt)
  exact mono

/-- Behind the tokens of a text and a line feed the lexer goes on with the next text. -/
theorem lexFrom_newline {s' : TokenStream} {n : Nat} (h : lexFrom fuel l cs = .ok s)
    (h' : lexFrom n (s.endLocation.step '\n') back = .ok s') (hle : fuel + 1 + n ≤ fuel') :
    lexFrom fuel' l (cs ++ '\n' :: back) = .ok ⟨s.tokens ++ s'.tokens, s'.endLocation⟩ := by
  induction fuel generalizing fuel' l cs s with
  | zero =>
    cases cs with
    | nil => cases h; exact lexFrom_gap h' (by omega)
    | cons c cs => cases h
  | succ fuel ih =>
    cases cs with
    | nil => cases h; exact lexFrom_gap h' (by omega)
    | cons c cs =>
      obtain ⟨fuel', rfl⟩ : ∃ m, fuel' = m + 1 := ⟨fuel' - 1, by omega⟩
      have hle : fuel + 1 + n ≤ fuel' := by omega
      simp only [lexFrom, List.cons_append] at h ⊢
      cases hg : gapAt? c cs with
      | some gap =>
        obtain ⟨g, rest⟩ := gap
        rw [hg] at h
        rw [gapAt?_newline back hg]
        exact ih h h' hle
      | none =>
        rw [hg] at h
        simp only at h
        split at h
        · cases h
        · next found hfound =>
          cases hrest : lexFrom fuel (l.advance (c :: found.tail)) found.rest with
          | error e => rw [hrest] at h; cases h
          | ok s₁ =>
            rw [hrest] at h
            cases h
            have again := Lexeme.at?_newline back hfound
            rw [gapAt?_eq_none_of_at? again, again]
            simp only
            rw [ih hrest h' hle]
            rfl

theorem endLocation_of_ofText {text : String} (h : ofText text = .ok s) :
    s.endLocation = Location.start.advance text.toList := by
  have partitions := ofText_partitions text
  rw [h] at partitions
  have located := partitions.located s.endToken (List.mem_append_right _ (List.mem_singleton_self _))
  rw [Location.advance_start]
  exact located.trans (congrArg (Location.inText text.toList) partitions.ends)

/-- **Texts below each other** have the tokens of both, and those of the second text stand below the first. -/
theorem ofText_joined {front back : String} {sf sb : TokenStream} (hf : ofText front = .ok sf)
    (hb : ofText back = .ok sb) :
    ofText (front ++ "\n" ++ back) = .ok (sf.append (sb.moved (·.below front.toList))) := by
  have moved := lexFrom_moved (Location.shifts_below front.toList) hb
  rw [Location.below_start, ← endLocation_of_ofText hf] at moved
  have chars : (front ++ "\n" ++ back).toList = front.toList ++ '\n' :: back.toList := by simp
  unfold ofText
  rw [chars]
  have newline : "\n".length = 1 := rfl
  exact lexFrom_newline hf moved (by simp only [String.length_append, newline, Nat.le_refl])

end TokenStream

end GateAsm
