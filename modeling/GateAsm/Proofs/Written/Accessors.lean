import GateAsm.Proofs.Created
import GateAsm.Proofs.Grammar.TypeForms
import GateAsm.Proofs.Printing
import GateAsm.Proofs.Tokens.Spaced

/-!
# Accessors and their texts

An accessor is read exactly if none is there, or if brackets hold at most three elements. Otherwise the parser stops
in front of the first token that is no element, or that neither goes on nor ends the list (`BracketFault`). What the
printer writes for an accessor is one, whatever stands behind it (`Parser.accessorList_codec`).
-/

namespace GateAsm

theorem Accessors.eq_of_components {a b : Accessors} (h : a.components = b.components) : a = b := by
  cases a
  cases b
  cases h
  rfl

/-! ## What is read, and what is not -/

def referencesIn (ts : List Token) : List Reference :=
  ts.filterMap fun t => if t.kind = .valueName then some ⟨t.text, t.location⟩ else none

namespace Parser

/-- The tokens go on with an accessor, of which the tokens are `used` and the components `parts`. -/
structure AccessorAt (ts used rest : List Token) (parts : List (Part String)) : Prop where
  split : ts = used ++ rest
  written : ∃ ps, used.map Token.word = OperandSyntax.accessorWords ps ∧ PartSyntax.parts? (ps.getD []) = some parts ∧
    (ps = none → nextKind rest ≠ .openBracket)
  few : parts.length ≤ 3

/-- No element of an accessor is next, and why. -/
inductive ElementFault (s : ParserState) : ParseCause → Prop
  | missing : nextKind s.rest ≠ .valueName → nextKind s.rest ≠ .int → ElementFault s (.noComponent (s.ahead 0))
  | large {d : String} {n : Int} {rest : List Token} : Splits [⟨.int, d⟩] s.rest rest → intLiteral? d = some n →
      ¬ InInt64 n → ElementFault s (.componentTooLarge n)

/-- A bracket opens no accessor, why, and in front of which tokens that shows. -/
inductive BracketFault (s : ParserState) : ParseCause → List Token → Prop
  | element {ps : List PartSyntax} {parts : List (Part String)} {rest : List Token} {c : ParseCause} :
      Splits (.mark .openBracket :: ps.flatMap fun p => [p.word, .mark .comma]) s.rest rest →
      PartSyntax.parts? ps = some parts → ps.length < 3 → (ps = [] → nextKind rest ≠ .closeBracket) →
      ElementFault (s.facing rest) c → BracketFault s c rest
  | delimiter {ps : List PartSyntax} {parts : List (Part String)} {rest : List Token} :
      Splits (.mark .openBracket :: listed (ps.map fun p => [p.word])) s.rest rest →
      PartSyntax.parts? ps = some parts → ps ≠ [] → ps.length ≤ 3 → nextKind rest ≠ .closeBracket →
      (nextKind rest = .comma → ps.length = 3) →
      BracketFault s (.missingDelimiter "']'" ((s.facing rest).ahead 0)) rest

variable {s t u : ParserState} {c : ParseCause} {ts rest used : List Token} {parts : List (Part String)}
    {rs rs' : List Reference}

/-! ## References in order -/

def Gathers (s t : ParserState) (rs : List Reference) : Prop := ∃ used, s.rest = used ++ t.rest ∧ rs = referencesIn used

theorem Gathers.refl : Gathers s s [] := ⟨[], rfl, rfl⟩

theorem Gathers.trans (h : Gathers s t rs) (h' : Gathers t u rs') : Gathers s u (rs ++ rs') := by
  obtain ⟨first, hfirst, rfl⟩ := h
  obtain ⟨second, hsecond, rfl⟩ := h'
  exact ⟨first ++ second, by rw [hfirst, hsecond, List.append_assoc], List.filterMap_append.symm⟩

theorem gathers_mark {k : TokenKind} (hk : k.isVaried = false) (h : Splits [.mark k] s.rest ts) :
    Gathers s (s.facing ts) [] := by
  obtain ⟨x, hx, rfl⟩ := (splits_mark_iff hk).mp h
  have other : x.kind ≠ .valueName := by
    intro hv
    rw [hv] at hk
    cases hk
  exact ⟨[x], hx, by simp [referencesIn, other]⟩

theorem gathers_component {x : Component × Option Reference} (h : Yields component s x t) : Gathers s t x.2.toList := by
  obtain ⟨o, u, ho, hx⟩ := yields_bind.mp h
  rcases yields_optionalOperand.mp ho with ⟨y, ts, hr, hy, rfl, rfl⟩ | ⟨hn, rfl, rfl⟩
  · obtain ⟨rfl, rfl⟩ := yields_pure.mp hx
    exact ⟨[y], hr, by simp [referencesIn, hy]⟩
  · simp only [yields_peek_bind, yields_ite, yields_bind (p := fail _ _), yields_bind (p := integerOf _),
      yields_advance_bind, not_yields_fail, false_and, exists_false, and_false, false_or, or_false,
      yields_integerOf, yields_pure] at hx
    obtain ⟨hk, n, v, ⟨-, rfl⟩, -, rfl, rfl⟩ := hx
    cases hr : v.rest with
    | nil => simp [hr] at hk
    | cons y ts =>
      have other : y.kind ≠ .valueName := by simpa [hr] using hn
      exact ⟨[y], hr, by simp [referencesIn, other]⟩

theorem gathers_components {room : Nat} {xs : List (Component × Option Reference)}
    (h : Yields (components room) s xs t) :
    Gathers s t (xs.filterMap (·.2)) := by
  induction room generalizing s t xs with
  | zero =>
    obtain ⟨rfl, rfl⟩ := yields_pure.mp h
    exact .refl
  | succ room ih =>
    obtain ⟨x, u, hx, h⟩ := yields_bind.mp h
    have first := gathers_component hx
    have alone : ∀ {ys t}, Yields (pure [x]) u ys t → Gathers s t (ys.filterMap (·.2)) := by
      intro ys t h
      obtain ⟨rfl, rfl⟩ := yields_pure.mp h
      have : [x].filterMap (·.2) = x.2.toList := by cases hx : x.2 <;> simp [hx]
      rwa [this]
    rcases yields_ite.mp h with ⟨-, h⟩ | ⟨-, h⟩
    · exact alone h
    · rcases (yields_unlessMark rfl (by decide)).mp h with ⟨vs, hc, h⟩ | ⟨-, h⟩
      · obtain ⟨ys, v, hy, h⟩ := yields_bind.mp h
        obtain ⟨rfl, rfl⟩ := yields_pure.mp h
        have := first.trans ((gathers_mark rfl hc).trans (ih hy))
        cases hx : x.2 <;> simpa [hx] using this
      · exact alone h

theorem gathers_accessorList {x : Accessors × List Reference} (h : Yields accessorList s x t) : Gathers s t x.2 := by
  rcases (yields_unlessMark rfl (by decide)).mp h with ⟨us, ho, h⟩ | ⟨-, h⟩
  · have opened := gathers_mark rfl ho
    rcases (yields_ifMark rfl (by decide)).mp h with ⟨vs, hc, h⟩ | ⟨-, h⟩
    · obtain ⟨rfl, rfl⟩ := yields_pure.mp h
      exact opened.trans (gathers_mark rfl hc)
    · obtain ⟨xs, u, hx, h⟩ := yields_bind.mp h
      obtain ⟨vs, hc, h⟩ := (yields_mark rfl (by decide)).mp h
      obtain ⟨rfl, rfl⟩ := yields_pure.mp h
      have := opened.trans ((gathers_components hx).trans (gathers_mark rfl hc))
      simpa using this
  · obtain ⟨rfl, rfl⟩ := yields_pure.mp h
    exact .refl

/-! ## What is read -/

/-- The parser succeeds exactly on accessors, and answers with the components and the references in order. -/
theorem accessorList_iff {a : Accessors} {refs : List Reference} : Yields accessorList s (a, refs) t ↔
    ∃ used parts, AccessorAt s.rest used t.rest parts ∧ a.components = parts.map Part.component ∧
      refs = referencesIn used ∧ t = s.facing t.rest := by
  have legal : ∀ {ps : Option (List PartSyntax)} {parts : List (Part String)},
      PartSyntax.parts? (ps.getD []) = some parts →
      parts.length ≤ 3 → LegalParts parts := fun hp hl => ⟨hl, PartSyntax.legal_of_parts? hp⟩
  constructor
  · intro h
    obtain ⟨ps, parts, rest, hs, hp, hl, hn, ⟨ha, -⟩, rfl⟩ := accessorList_sound h
    obtain ⟨used, hsplit, hrefs⟩ := gathers_accessorList h
    obtain ⟨used', hsplit', hwords⟩ := hs
    obtain rfl : used = used' := List.append_cancel_right (hsplit.symm.trans hsplit')
    refine ⟨used, parts, ⟨hsplit, ⟨ps, hwords, hp, hn⟩, hl⟩, ?_, hrefs, rfl⟩
    rw [show a = accessorsOf parts from ha, components_accessorsOf (legal hp hl)]
  · rintro ⟨used, parts, ⟨hsplit, ⟨ps, hwords, hp, hn⟩, hl⟩, ha, rfl, ht⟩
    obtain ⟨⟨a', refs⟩, hx, hstand, -⟩ := accessorList_complete ⟨used, hsplit, hwords⟩ hp hl hn
    obtain ⟨used', hsplit', hrefs⟩ := gathers_accessorList hx
    obtain rfl : used = used' := List.append_cancel_right (hsplit.symm.trans hsplit')
    have same : a = a' := by
      apply Accessors.eq_of_components
      rw [ha, show a' = accessorsOf parts from hstand, components_accessorsOf (legal hp hl)]
    rw [same, ht, ← show refs = referencesIn used from hrefs]
    exact hx

/-! ## What is not read -/

def StopsAt {α : Type} (p : Parser α) (s : ParserState) (c : ParseCause) (ts : List Token) : Prop :=
  (p s).1 = .error (.error ⟨c, ((s.facing ts).ahead 0).location⟩)

section
variable {α β : Type} {p : Parser α} {f : α → Parser β}

theorem StopsAt.bind (h : StopsAt p s c ts) : StopsAt (p >>= f) s c ts := by
  unfold StopsAt at h ⊢
  rw [bind_apply, h]
  rfl

theorem Yields.stopsAt {a : α} (h : Yields p s a (s.facing rest)) (hf : StopsAt (f a) (s.facing rest) c ts) :
    StopsAt (p >>= f) s c ts := by
  unfold StopsAt at hf ⊢
  rw [h.bind_eq]
  exact hf

end

theorem stopsAt_fail {α : Type} {l : Location} (hl : (s.ahead 0).location = l) :
    StopsAt (fail (α := α) c l) s c s.rest := by
  unfold StopsAt
  rw [ParserState.facing_rest, hl]
  rfl

theorem stopsAt_expect {k : TokenKind} (hk : k.isDelimiter = true) (h : nextKind s.rest ≠ k) :
    StopsAt (expect k) s (.missingDelimiter k.description (s.ahead 0)) s.rest := by
  have other : ¬ (s.ahead 0).kind = k := by rwa [kind_ahead_zero]
  have peeked : Yields (peek 0) s (s.ahead 0) (s.facing s.rest) := yields_peek.mpr ⟨rfl, rfl⟩
  refine Yields.stopsAt peeked ?_
  rw [if_neg other, missing, if_pos hk]
  exact stopsAt_fail rfl

theorem ElementFault.stopsAt (h : ElementFault s c) : StopsAt component s c s.rest := by
  have none : nextKind s.rest ≠ .valueName → Yields optionalOperand s none (s.facing s.rest) := fun hv =>
    yields_optionalOperand.mpr (.inr ⟨hv, rfl, rfl⟩)
  have peeked : Yields (peek 0) s (s.ahead 0) (s.facing s.rest) := yields_peek.mpr ⟨rfl, rfl⟩
  cases h with
  | missing hv hint =>
    have other : ((s.ahead 0).kind != .int) = true := by simpa using hint
    refine Yields.stopsAt (none hv) (Yields.stopsAt peeked ?_)
    simp only [other, if_true]
    exact StopsAt.bind (stopsAt_fail rfl)
  | large hs hn hlarge =>
    obtain ⟨x, hx, hk, rfl⟩ := (splits_single rfl).mp hs
    have isInt : ((s.ahead 0).kind != .int) = false := by simp [ahead_of_rest hx, hk]
    have read : Yields (integerOf (s.ahead 0)) s _ (s.facing s.rest) :=
      yields_integerOf.mpr ⟨by rwa [ahead_of_rest hx], rfl⟩
    refine Yields.stopsAt (none (by rw [hs.nextKind_eq rfl]; exact nofun)) (Yields.stopsAt peeked ?_)
    simp only [isInt, Bool.false_eq_true, if_false]
    refine Yields.stopsAt read ?_
    rw [if_neg hlarge]
    exact stopsAt_fail rfl

theorem components_stopsAt {room : Nat} {ps : List PartSyntax}
    (hs : Splits (ps.flatMap fun p => [p.word, .mark .comma]) s.rest rest) (hp : PartSyntax.parts? ps = some parts)
    (hlen : ps.length < room) (hc : ElementFault (s.facing rest) c) : StopsAt (components room) s c rest := by
  induction room generalizing s ps parts with
  | zero => cases hlen
  | succ room ih =>
    cases ps with
    | nil =>
      obtain rfl := Splits.nil_iff.mp hs
      exact StopsAt.bind hc.stopsAt
    | cons w ps =>
      obtain ⟨p, qs, hp1, hq, rfl⟩ := PartSyntax.parts?_cons_iff.mp hp
      obtain ⟨us, hw, htail⟩ := Splits.first_iff.mp hs
      obtain ⟨vs, hcomma, hmore⟩ := Splits.append_iff.mp htail
      obtain ⟨x, hx, -⟩ := component_complete hw hp1
      obtain ⟨y, hy, hk⟩ := (splits_mark_iff rfl).mp hcomma
      have taken : Yields (optional .comma) (s.facing us) (some y) ((s.facing us).facing vs) :=
        (yields_optional (by decide)).mpr (.inl ⟨y, vs, hy, hk, rfl, rfl⟩)
      have hlen := Nat.lt_of_succ_lt_succ hlen
      refine Yields.stopsAt hx ?_
      rw [if_neg (Nat.ne_of_gt (Nat.zero_lt_of_lt hlen))]
      exact Yields.stopsAt taken (StopsAt.bind (ih (s := (s.facing us).facing vs) hmore hq hlen hc))

theorem accessorList_opened {us : List Token} (hopen : Splits [.mark .openBracket] s.rest us)
    (hclose : nextKind us ≠ .closeBracket) (h : StopsAt (do
      let cs ← components Accessors.maxSize
      let _ ← expect .closeBracket
      return ((Accessors.ofComponents? (cs.map (·.1))).getD .empty, cs.filterMap (·.2))) (s.facing us) c rest) :
    StopsAt accessorList s c rest := by
  obtain ⟨x, hx, hk⟩ := (splits_mark_iff rfl).mp hopen
  have taken : Yields (optional .openBracket) s (some x) (s.facing us) :=
    (yields_optional (by decide)).mpr (.inl ⟨x, us, hx, hk, rfl, rfl⟩)
  have filled : Yields (optional .closeBracket) (s.facing us) none ((s.facing us).facing us) :=
    (yields_optional (by decide)).mpr (.inr ⟨hclose, rfl, rfl⟩)
  exact Yields.stopsAt taken (Yields.stopsAt filled h)

theorem nextKind_element {w : PartSyntax} {ws : List Word} (h : Splits (w.word :: ws) ts rest) :
    nextKind ts ≠ .closeBracket := by
  rw [h.nextKind_eq rfl]
  cases w <;> exact nofun

theorem BracketFault.stopsAt (h : BracketFault s c rest) : StopsAt accessorList s c rest := by
  cases h with
  | @element ps parts _ _ hs hp hlen hn hc =>
    obtain ⟨us, hopen, hmore⟩ := Splits.first_iff.mp hs
    refine accessorList_opened hopen ?_ (StopsAt.bind (components_stopsAt (s := s.facing us) hmore hp hlen hc))
    cases ps with
    | nil =>
      obtain rfl := Splits.nil_iff.mp hmore
      exact hn rfl
    | cons w ps => exact nextKind_element hmore
  | @delimiter ps parts _ hs hp hne hlen hend hcomma =>
    obtain ⟨us, hopen, hmore⟩ := Splits.first_iff.mp hs
    obtain ⟨w, ps, rfl⟩ := List.exists_cons_of_ne_nil hne
    have length := PartSyntax.length_parts? hp
    obtain ⟨xs, hx, -⟩ := components_complete (s := s.facing us) hmore hp
      (show parts.length ≤ Accessors.maxSize from length ▸ hlen)
      fun hc => length.trans (hcomma hc)
    refine accessorList_opened hopen (nextKind_element hmore) (Yields.stopsAt hx (StopsAt.bind ?_))
    exact stopsAt_expect (s := s.facing rest) (k := .closeBracket) rfl hend

/-! ## Nothing else happens -/

theorem component_answers (h : Legible s.rest) : (∃ x t, Yields component s x t) ∨ ∃ c, ElementFault s c := by
  by_cases hv : nextKind s.rest = .valueName
  · obtain ⟨x, us, hx, hk⟩ := exists_cons_of_nextKind hv (by decide)
    obtain ⟨y, hy, -⟩ := component_complete (w := .reference x.text) ((splits_single rfl).mpr ⟨x, hx, hk, rfl⟩) rfl
    exact .inl ⟨y, _, hy⟩
  by_cases hint : nextKind s.rest = .int
  · obtain ⟨x, us, hx, hk⟩ := exists_cons_of_nextKind hint (by decide)
    obtain ⟨n, hn⟩ := h x (hx ▸ List.mem_cons_self) hk
    have split : Splits [⟨.int, x.text⟩] s.rest us := (splits_single rfl).mpr ⟨x, hx, hk, rfl⟩
    by_cases hlarge : InInt64 n
    · obtain ⟨y, hy, -⟩ := component_complete (w := .int x.text) (p := .number n) split
        (by simp [PartSyntax.part?, hn, hlarge])
      exact .inl ⟨y, _, hy⟩
    · exact .inr ⟨_, .large split hn hlarge⟩
  · exact .inr ⟨_, .missing hv hint⟩

theorem components_answers {room : Nat} (hroom : 0 < room) (h : Legible s.rest) :
    (∃ ps parts rest, ps ≠ [] ∧ ps.length ≤ room ∧ Splits (listed (ps.map fun p => [PartSyntax.word p])) s.rest rest ∧
      PartSyntax.parts? ps = some parts ∧ (nextKind rest = .comma → ps.length = room)) ∨
    ∃ ps parts rest c, Splits (ps.flatMap fun p => [PartSyntax.word p, .mark .comma]) s.rest rest ∧
      PartSyntax.parts? ps = some parts ∧ ps.length < room ∧ ElementFault (s.facing rest) c := by
  induction room generalizing s with
  | zero => cases hroom
  | succ room ih =>
    rcases component_answers h with ⟨x, t, hx⟩ | ⟨c, hc⟩
    swap
    · exact .inr ⟨[], [], s.rest, c, Splits.nil_iff.mpr rfl, rfl, hroom, hc⟩
    obtain ⟨w, p, us, hs, hp, -, rfl⟩ := component_sound hx
    by_cases hmore : room ≠ 0 ∧ nextKind us = .comma
    · obtain ⟨hz, hcomma⟩ := hmore
      obtain ⟨y, vs, hy, hk⟩ := exists_cons_of_nextKind hcomma (by decide)
      have comma : Splits [.mark .comma] us vs := (splits_mark_iff rfl).mpr ⟨y, hy, hk⟩
      have legible : Legible ((s.facing us).facing vs).rest := h.of_sublist (comma.sublist.trans hs.sublist)
      rcases ih (Nat.pos_of_ne_zero hz) legible with
        ⟨ps, parts, rest, hne, hlen, hps, hparts, hlast⟩ | ⟨ps, parts, rest, c, hps, hparts, hlen, hc⟩
      · refine .inl ⟨w :: ps, p :: parts, rest, List.cons_ne_nil _ _, by simpa using hlen, ?_,
          PartSyntax.parts?_cons_iff.mpr ⟨p, parts, hp, hparts, rfl⟩, fun hc => by simp [hlast hc]⟩
        obtain ⟨w', ps, rfl⟩ := List.exists_cons_of_ne_nil hne
        simpa [listed_cons] using hs.append (comma.append hps)
      · refine .inr ⟨w :: ps, p :: parts, rest, c, ?_, PartSyntax.parts?_cons_iff.mpr ⟨p, parts, hp, hparts, rfl⟩,
          by simpa using hlen, hc⟩
        simpa using hs.append (comma.append hps)
    · have ends : nextKind us = .comma → room = 0 := fun hc => Decidable.byContradiction fun hz => hmore ⟨hz, hc⟩
      exact .inl ⟨[w], [p], us, List.cons_ne_nil _ _, by simp, by simpa [listed_cons] using hs,
        PartSyntax.parts?_cons_iff.mpr ⟨p, [], hp, rfl, rfl⟩, fun hc => by simp [ends hc]⟩

/-- An accessor is read, or its bracket is at fault. -/
theorem accessorList_answers (h : Legible s.rest) :
    (∃ x t, Yields accessorList s x t) ∨ ∃ c rest, BracketFault s c rest := by
  have read : ∀ (ps : Option (List PartSyntax)) {parts : List (Part String)} {rest : List Token},
      Splits (OperandSyntax.accessorWords ps) s.rest rest → PartSyntax.parts? (ps.getD []) = some parts →
      parts.length ≤ 3 → (ps = none → nextKind rest ≠ .openBracket) → ∃ x t, Yields accessorList s x t := by
    intro ps parts rest hs hp hl hn
    obtain ⟨x, hx, -⟩ := accessorList_complete hs hp hl hn
    exact ⟨x, _, hx⟩
  have closing : ∀ {us : List Token}, nextKind us = .closeBracket → ∃ vs, Splits [.mark .closeBracket] us vs := by
    intro us hclose
    obtain ⟨y, vs, hy, hk⟩ := exists_cons_of_nextKind hclose (by decide)
    exact ⟨vs, (splits_mark_iff rfl).mpr ⟨y, hy, hk⟩⟩
  by_cases hopen : nextKind s.rest = .openBracket
  swap
  · exact .inl (read none (Splits.nil_iff.mpr rfl) rfl (Nat.zero_le _) fun _ => hopen)
  obtain ⟨x, us, hx, hk⟩ := exists_cons_of_nextKind hopen (by decide)
  have opened : Splits [.mark .openBracket] s.rest us := (splits_mark_iff rfl).mpr ⟨x, hx, hk⟩
  by_cases hclose : nextKind us = .closeBracket
  · obtain ⟨vs, closed⟩ := closing hclose
    exact .inl (read (some []) (opened.append closed) rfl (Nat.zero_le _) nofun)
  rcases components_answers (s := s.facing us) (show 0 < 3 by decide) (h.of_sublist opened.sublist) with
    ⟨ps, parts, rest, hne, hlen, hps, hparts, hlast⟩ | ⟨ps, parts, rest, c, hps, hparts, hlen, hc⟩
  · by_cases hend : nextKind rest = .closeBracket
    · obtain ⟨vs, closed⟩ := closing hend
      have few : parts.length ≤ 3 := PartSyntax.length_parts? hparts ▸ hlen
      exact .inl (read (some ps) (opened.append (hps.append closed)) hparts few nofun)
    · exact .inr ⟨_, rest, .delimiter (opened.append hps) hparts hne hlen hend hlast⟩
  · refine .inr ⟨c, rest, .element (opened.append hps) hparts hlen (fun he => ?_) hc⟩
    rw [he] at hps
    rwa [← Splits.nil_iff.mp hps]

end Parser

/-! ## What is printed -/

theorem exists_parts {cs : List Component} {ids : List Nat} (h : cs.count .dynamic ≤ ids.length) :
    ∃ ps : List (Part Nat), ps.map Part.component = cs ∧
      ps.filterMap Part.reference? = ids.take (cs.count .dynamic) := by
  induction cs generalizing ids with
  | nil => exact ⟨[], rfl, rfl⟩
  | cons c cs ih =>
    cases c with
    | dynamic =>
      rw [List.count_cons_self] at h ⊢
      cases ids with
      | nil => cases h
      | cons id ids =>
        obtain ⟨ps, rfl, hids⟩ := ih (Nat.le_of_succ_le_succ h)
        exact ⟨.reference id :: ps, rfl, by simp [Part.reference?, hids]⟩
    | constant n =>
      rw [List.count_cons_of_ne (by simp)] at h ⊢
      obtain ⟨ps, rfl, hids⟩ := ih h
      exact ⟨.number n :: ps, rfl, hids⟩

theorem Accessors.exists_legalParts {a : Accessors} {ids : List Nat} (h : a.dynamicCount ≤ ids.length) :
    ∃ ps : List (Part Nat), LegalParts ps ∧ accessorsOf ps = a ∧
      ps.filterMap Part.reference? = ids.take a.dynamicCount := by
  obtain ⟨ps, hcs, hids⟩ := exists_parts h
  have legal : LegalParts ps := by
    refine ⟨?_, fun p hp => a.legal _ (hcs ▸ List.mem_map_of_mem hp)⟩
    rw [← List.length_map Part.component, hcs]
    exact a.size_le
  exact ⟨ps, legal, Accessors.eq_of_components (by rw [components_accessorsOf legal, hcs]), hids⟩

section
variable {ps : List (Part String)} {rest : List Char} {vs : List Word}

theorem lexes_accessor (h : ∀ n ∈ ps.filterMap Part.reference?, IsValueName n) (hl : Lexes rest vs) :
    Lexes ((accessorText ps).toList ++ rest) (OperandSyntax.accessorWords (accessorForm ps) ++ vs) := by
  cases ps with
  | nil => exact hl
  | cons p ps =>
    have list := emits_intercalate (p :: ps) fun q hq =>
      Part.emits_written fun n hn => h n (List.mem_filterMap.mpr ⟨q, hq, hn⟩)
    have := (list.closed (c := ']') rfl hl).mark (c := '[') rfl
    simpa [accessorText, accessorForm, OperandSyntax.accessorWords, Function.comp_def] using this

theorem parts?_accessorForm (h : LegalParts ps) : PartSyntax.parts? ((accessorForm ps).getD []) = some ps := by
  cases ps with
  | nil => rfl
  | cons p ps => exact Part.parts?_form h.2

end

open GateAsm.Parser (Yields accessorList nextKind)

theorem accessors_read_back {a : Accessors} {shown : Nat → Label} {operands : List Nat}
    (hcount : a.dynamicCount ≤ operands.length)
    (hnamed : ∀ id ∈ operands.take a.dynamicCount, ∃ n, shown id = .text n ∧ IsValueName n) :
    ∃ text, Printer.accessors shown (.accessors a) operands = .ok (text, operands.drop a.dynamicCount) ∧
      ∀ after sa, TokenStream.ofText after = .ok sa → (a.components = [] → nextKind sa.tokens ≠ .openBracket) →
        ∃ all, TokenStream.ofText (text ++ after) = .ok all ∧ ∀ s : ParserState, s.rest = all.tokens →
          ∃ refs rest, Yields accessorList s (a, refs) (s.facing rest) ∧
            refs.map (fun r => Label.text r.name) = (operands.take a.dynamicCount).map shown ∧
            rest.map Token.spelling = sa.tokens.map Token.spelling := by
  obtain ⟨ps, legal, rfl, hids⟩ := Accessors.exists_legalParts hcount
  let name : Nat → String := fun id => (shown id).display
  have text : ∀ id ∈ ps.filterMap Part.reference?, shown id = .text (name id) ∧ IsValueName (name id) := by
    intro id hid
    obtain ⟨n, hn, hvalue⟩ := hnamed id (hids ▸ hid)
    rw [show name id = n from congrArg Label.display hn]
    exact ⟨hn, hvalue⟩
  have printed := Printer.accessors_eq ps (operands.drop (accessorsOf ps).dynamicCount) legal
    fun id hid => (text id hid).1
  rw [hids, List.take_append_drop] at printed
  have references : (ps.map (·.map name)).filterMap Part.reference? = (ps.filterMap Part.reference?).map name := by
    simp [List.filterMap_map, List.map_filterMap]
  have named : ∀ n ∈ (ps.map (·.map name)).filterMap Part.reference?, IsValueName n := by
    rw [references]
    exact List.forall_mem_map.mpr fun id hid => (text id hid).2
  -- the accessor with names in the place of its operands is legal as well
  have legalNames : LegalParts (ps.map (·.map name)) := by
    refine ⟨by rw [List.length_map]; exact legal.1, List.forall_mem_map.mpr fun p hp => ?_⟩
    rw [Part.component_map]
    exact legal.2 p hp
  refine ⟨_, printed, fun after sa ha hempty => ?_⟩
  obtain ⟨all, rest, hall, hsplit, hrest⟩ := TokenStream.ofText_in_front ha fun vs hl => lexes_accessor named hl
  refine ⟨all, hall, fun s hs => ?_⟩
  have ends : accessorForm (ps.map (·.map name)) = none → nextKind rest ≠ .openBracket := by
    intro hnone
    rw [Token.nextKind_of_spellings hrest]
    cases ps with
    | nil => exact hempty rfl
    | cons p ps => cases hnone
  obtain ⟨⟨a, refs⟩, hx, ha, hnames⟩ := Parser.accessorList_complete (s := s) (hs ▸ hsplit)
    (parts?_accessorForm legalNames) legalNames.1 ends
  obtain rfl : a = accessorsOf ps := by
    rw [show a = _ from ha]
    simp [accessorsOf, Function.comp_def]
  refine ⟨refs, rest, hx, ?_, hrest⟩
  calc refs.map (fun r => Label.text r.name)
      = (refs.map Reference.name).map .text := by rw [List.map_map]; rfl
    _ = ((ps.filterMap Part.reference?).map name).map .text := by rw [← references]; exact congrArg _ hnames
    _ = (ps.filterMap Part.reference?).map shown := by
        rw [List.map_map]
        exact List.map_congr_left fun id hid => (text id hid).1.symm
    _ = _ := by rw [hids]

/-- **Accessors are read and written alike.** The parser answers exactly on accessors, with the components and the
references in order, and consumes no more; otherwise it stops at the fault in the bracket. What the printer writes for
an accessor takes one operand for each reference and is read as the same accessor, in front of any text; only nothing
at all needs a text behind it that opens no bracket. -/
theorem Parser.accessorList_codec :
    (∀ s : ParserState, Legible s.rest →
      (∀ a refs t, Yields accessorList s (a, refs) t ↔ ∃ used parts, AccessorAt s.rest used t.rest parts ∧
        a.components = parts.map Part.component ∧ refs = referencesIn used ∧ t = s.facing t.rest) ∧
      (∀ a refs t, Yields accessorList s (a, refs) t → refs.length = a.dynamicCount) ∧
      ∀ f, (accessorList s).1 = .error f ↔
        ∃ c rest, BracketFault s c rest ∧ f = .error ⟨c, ((s.facing rest).ahead 0).location⟩) ∧
    ∀ (a : Accessors) (shown : Nat → Label) (operands : List Nat), a.dynamicCount ≤ operands.length →
      (∀ id ∈ operands.take a.dynamicCount, ∃ n, shown id = .text n ∧ IsValueName n) →
      ∃ text, Printer.accessors shown (.accessors a) operands = .ok (text, operands.drop a.dynamicCount) ∧
        ∀ after sa, TokenStream.ofText after = .ok sa → (a.components = [] → nextKind sa.tokens ≠ .openBracket) →
          ∃ all, TokenStream.ofText (text ++ after) = .ok all ∧ ∀ s : ParserState, s.rest = all.tokens →
            ∃ refs rest, Yields accessorList s (a, refs) (s.facing rest) ∧
              refs.map (fun r => Label.text r.name) = (operands.take a.dynamicCount).map shown ∧
              rest.map Token.spelling = sa.tokens.map Token.spelling := by
  refine ⟨fun s h => ⟨fun a refs t => accessorList_iff, fun a refs t hx => ?_, fun f => ⟨fun hf => ?_, ?_⟩⟩,
    fun a shown operands => accessors_read_back⟩
  · obtain ⟨ps, parts, rest, -, hp, hl, -, ⟨ha, hrefs⟩, -⟩ := accessorList_sound hx
    have legal : LegalParts parts := ⟨hl, PartSyntax.legal_of_parts? hp⟩
    rw [show a = accessorsOf parts from ha, Accessors.dynamicCount, components_accessorsOf legal,
      count_dynamic, ← hrefs, List.length_map]
  · obtain ⟨x, t, hx⟩ | ⟨c, rest, hfault⟩ := accessorList_answers h
    · rw [show accessorList s = (.ok x, t) from hx] at hf
      cases hf
    · have hstop : (accessorList s).1 = _ := hfault.stopsAt
      rw [hf] at hstop
      cases hstop
      exact ⟨c, rest, hfault, rfl⟩
  · rintro ⟨c, rest, hfault, rfl⟩
    exact hfault.stopsAt

/-- A number of sixty-five bits behind a reference, and a slice with a reference in front of a bracket. -/
theorem Parser.accessorList_codec_slices :
    (∃ all, TokenStream.ofText "[%i, 9223372036854775808]" = .ok all ∧ Legible all.tokens ∧
      (accessorList (.start all .default .empty)).1 =
        .error (.error ⟨.componentTooLarge 9223372036854775808, ⟨1, 6, 5⟩⟩)) ∧
    ∃ text, Printer.accessors (fun _ => .text "%i")
        (.accessors ⟨[.dynamic, .constant (-1)], by decide, by decide⟩) [7, 8] = .ok (text, [8]) ∧
      ∃ all, TokenStream.ofText (text ++ "[0]") = .ok all ∧ ∃ refs rest,
        Yields accessorList (.start all .default .empty) (⟨[.dynamic, .constant (-1)], by decide, by decide⟩, refs)
          ((ParserState.start all .default .empty).facing rest) ∧ rest.length = 3 := by
  obtain ⟨reads, prints⟩ := accessorList_codec
  refine ⟨?_, ?_⟩
  · let large : Token := ⟨.int, "9223372036854775808", ⟨1, 6, 5⟩⟩
    let all : TokenStream := ⟨[⟨.openBracket, "[", ⟨1, 1, 0⟩⟩, ⟨.valueName, "%i", ⟨1, 2, 1⟩⟩, ⟨.comma, ",", ⟨1, 4, 3⟩⟩,
      large, ⟨.closeBracket, "]", ⟨1, 25, 24⟩⟩], ⟨1, 26, 25⟩⟩
    have tokens : TokenStream.ofText "[%i, 9223372036854775808]" = .ok all := rfl
    have value : intLiteral? large.text = some 9223372036854775808 := by decide +kernel
    have legible : Legible all.tokens := by
      intro t ht hk
      simp only [all, List.mem_cons, List.not_mem_nil, or_false] at ht
      rcases ht with rfl | rfl | rfl | rfl | rfl
      case inr.inr.inr.inl => exact ⟨_, value⟩
      all_goals cases hk
    have fault : BracketFault (.start all .default .empty) (.componentTooLarge 9223372036854775808)
        [large, ⟨.closeBracket, "]", ⟨1, 25, 24⟩⟩] :=
      @BracketFault.element _ [.reference "%i"] _ _ _ ⟨[_, _, _], rfl, rfl⟩ rfl (by decide) nofun
        (.large ⟨[_], rfl, rfl⟩ value (by decide))
    exact ⟨all, tokens, legible, ((reads (.start all .default .empty) legible).2.2 _).mpr ⟨_, _, fault, rfl⟩⟩
  · have bracket : TokenStream.ofText "[0]" = .ok ⟨[⟨.openBracket, "[", ⟨1, 1, 0⟩⟩, ⟨.int, "0", ⟨1, 2, 1⟩⟩,
        ⟨.closeBracket, "]", ⟨1, 3, 2⟩⟩], ⟨1, 4, 3⟩⟩ := rfl
    have named : IsValueName "%i" := ⟨'i', [], rfl, List.all_eq_true.mp rfl⟩
    obtain ⟨text, htext, read⟩ := prints ⟨[.dynamic, .constant (-1)], by decide, by decide⟩ (fun _ => .text "%i") [7, 8]
      (by decide) fun id _ => ⟨"%i", rfl, named⟩
    obtain ⟨all, hall, found⟩ := read "[0]" _ bracket nofun
    obtain ⟨refs, rest, hread, -, hrest⟩ := found (.start all .default .empty) rfl
    exact ⟨text, htext, all, hall, refs, rest, hread, by simpa using congrArg List.length hrest⟩

end GateAsm
