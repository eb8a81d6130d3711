import GateAsm.Parser.Instruction
import GateAsm.Proofs.Frame
import GateAsm.Proofs.LoadingTypes
import GateAsm.Proofs.Written.Reading

/-!
# Types after any history

Types come from the classes, from texts and from serialized values, and all of them are kept by their
context. Its text is one of the texts of types, and is read back as the type itself, exactly if its width is
given as an integer (`TypeHistory.reads_back_iff`).
-/

namespace GateAsm

/-! ## Texts of types -/

inductive TypeText : String → Prop
  | index : TypeText "index"
  | qubit : TypeText "qubit"
  | gate1 : TypeText "gate1"
  | gate2 : TypeText "gate2"
  | circuit : TypeText "circuit"
  | integer (n : Nat) : 1 ≤ n → n ≤ 64 → TypeText ("i" ++ toString n)
  | float (n : Nat) : n = 16 ∨ n = 32 ∨ n = 64 → TypeText ("f" ++ toString n)
  | unsized : TypeText "register<>"
  | register (n : Nat) : 1 < n → TypeText ("register<" ++ toString n ++ ">")
  | uncounted (b : GateBase) : TypeText ("cgate<" ++ b.text ++ ">")
  | controlled (b : GateBase) (n : Nat) : 0 < n → TypeText ("cgate<" ++ toString n ++ ", " ++ b.text ++ ">")

namespace Ty

/-- The width of the type, if it has one, is given as an integer. -/
def Numeral : Ty → Prop
  | .integer w | .float w => w.form = .int ∨ w.form = .int64
  | _ => True

instance : (t : Ty) → Decidable t.Numeral
  | integer w | float w => inferInstanceAs (Decidable (w.form = .int ∨ w.form = .int64))
  | index | qubit | register _ | gate1 | gate2 | circuit | controlled .. | abstract => .isTrue trivial

variable {t : Ty}

theorem Numeral.text_plain (h : t.Numeral) : t.plain.text = t.text := by
  have width : ∀ w : Width, w.form = .int ∨ w.form = .int64 → (Width.ofNat w.value).text = w.text := by
    intro w hw
    obtain ⟨n, f⟩ := w
    rcases hw with rfl | rfl
    · rfl
    · rfl
  cases t with
  | integer w => exact congrArg ("i" ++ ·) (width w h)
  | float w => exact congrArg ("f" ++ ·) (width w h)
  | _ => rfl

theorem Made.text_of_not_numeral (h : t.Made) (hn : ¬ t.Numeral) :
    t.text ∈ ["iTrue", "f16.0", "f32.0", "f64.0"] ∧ t.base? = none ∧ t.plain ≠ .qubit := by
  cases t with
  | integer w =>
    rcases h with rfl | h
    · exact ⟨by decide, rfl, nofun⟩
    · exact absurd (.inl h.1) hn
  | float w =>
    obtain ⟨n, f⟩ := w
    obtain ⟨hf, hw⟩ := h
    refine ⟨?_, rfl, nofun⟩
    cases f with
    | int => exact absurd (.inl rfl) hn
    | int64 => exact absurd (.inr rfl) hn
    | bool => exact absurd rfl hf
    | float | float32 =>
      rcases hw with hw | hw | hw
      · cases hw; decide
      · cases hw; decide
      · cases hw; decide
  | abstract => cases h
  | _ => exact absurd trivial hn

theorem Made.readable_plain (h : t.Made) (few : ∀ n, t.number? = some n → FewDigits n) : t.plain.Readable := by
  cases t with
  | integer w => exact ⟨rfl, h.wellFormed, nofun, nofun⟩
  | float w => exact ⟨rfl, h.wellFormed, nofun, nofun⟩
  | abstract => cases h
  | _ => exact ⟨rfl, h.wellFormed, nofun, few⟩

end Ty

theorem not_typeText {s : String} (hs : s ∈ ["iTrue", "f16.0", "f32.0", "f64.0"]) : ¬ TypeText s := by
  have chars : ∀ {a b : String}, a = b → a.toList = b.toList := congrArg _
  have widths : ∀ n < 65, "i" ++ toString n ∉ ["iTrue", "f16.0", "f32.0", "f64.0"] := by decide
  intro ht
  cases ht with
  | integer n _ h => exact widths n (Nat.lt_succ_of_le h) hs
  | float n h => rcases h with rfl | rfl | rfl <;> exact absurd hs (by decide)
  | register | uncounted | controlled =>
    simp only [List.mem_cons, List.not_mem_nil, or_false] at hs
    rcases hs with h | h | h | h <;> simpa using chars h
  | _ => exact absurd hs (by decide)

theorem Ty.Made.typeText_iff {t : Ty} (h : t.Made) : TypeText t.text ↔ t.Numeral := by
  constructor
  · intro ht
    by_contra hn
    exact not_typeText (h.text_of_not_numeral hn).1 ht
  · intro hn
    rw [← hn.text_plain]
    have hw := h.wellFormed
    cases t with
    | index => exact .index
    | integer w => exact .integer w.value hw.1 hw.2
    | float w => exact .float w.value hw
    | qubit => exact .qubit
    | register n =>
      cases n with
      | none => exact .unsized
      | some n => exact .register n hw
    | gate1 => exact .gate1
    | gate2 => exact .gate2
    | circuit => exact .circuit
    | controlled b n =>
      cases n with
      | none => exact .uncounted b
      | some n => exact .controlled b n hw
    | abstract => cases h

/-! ## Reading a type -/

theorem Parser.frame_grows : Frame fun s t => s.context.Grows t.context where
  refl _ := .refl _
  trans h h' := h.trans h'
  consume _ := .refl _
  report _ _ := .refl _
  record _ _ := .refl _
  context _ _ ht hb := TypeContext.grows_intern ht hb
  tags _ _ := .refl _
  input _ _ _ _ _ _ _ := .refl _

section
variable {r : Registry} {text : String} {c : TypeContext} {t : Ty}

theorem Reading.grows_type (r : Registry) (text : String) (c : TypeContext) :
    c.Grows (Reading.type r text c).context := by
  have hR := Parser.frame_grows
  have keeps := hR.bind (hR.typeExpr r) fun t => hR.bind hR.expectEnd fun _ => hR.pure t
  unfold Reading.type Reading.run
  split
  · exact .refl c
  · next tokens _ => exact keeps (.start tokens c .empty)

theorem Reading.run_of_yields {α : Type} {p : Parser α} {b : Block} {a : α} {tokens : TokenStream} {s : ParserState}
    (htokens : TokenStream.ofText text = .ok tokens) (h : Parser.Yields p (.start tokens c b) a s) :
    run p text c b = ⟨.ok a, s.block, s.context, s.diagnostics, s.events⟩ := by
  have same : p (.start tokens c b) = (.ok a, s) := h
  simp only [run, htokens, same]

theorem Reading.exists_yields {α : Type} {p : Parser α} {b : Block} {a : α} (h : (run p text c b).answer = .ok a) :
    ∃ tokens s, TokenStream.ofText text = .ok tokens ∧ Parser.Yields p (.start tokens c b) a s := by
  unfold run at h
  cases htokens : TokenStream.ofText text with
  | error e => rw [htokens] at h; cases h
  | ok tokens =>
    rw [htokens] at h
    exact ⟨tokens, (p (.start tokens c b)).2, rfl, Prod.ext h rfl⟩

theorem Reading.type_eq_ok (h : (Reading.type r text c).answer = .ok t) :
    ∃ (w : TypeSyntax) (u : Ty) (rest : List Word), Lexes text.toList (w.words ++ rest) ∧ (∀ x ∈ w.words, x.Spelled) ∧
      w.ty? r = some u ∧ t = (c.keep u).1 ∧ (c.keep u).2.Grows (Reading.type r text c).context := by
  obtain ⟨tokens, s, htokens, read⟩ := exists_yields h
  obtain ⟨lexes, spelled⟩ := lexes_of_ofText htokens
  have left : (Reading.type r text c).context = s.context := congrArg Reading.context (run_of_yields htokens read)
  obtain ⟨a, s', first, last⟩ := Parser.yields_bind.mp read
  obtain ⟨x, s'', ended, last⟩ := Parser.yields_bind.mp last
  obtain ⟨rfl, rfl⟩ := Parser.yields_pure.mp last
  obtain ⟨w, u, rest, ⟨used, hused, hw⟩, hu, rfl, rfl⟩ := Parser.yields_typeExpr.mp first
  have words : tokens.tokens.map Token.word = w.words ++ rest.map Token.word := by
    rw [← hw, ← List.map_append]
    exact congrArg _ hused
  have grown : (c.keep u).2.Grows s.context := by
    have := Parser.frame_grows.expectEnd (((ParserState.start tokens c .empty).keeping u).facing rest)
    rw [ended] at this
    simpa [ParserState.start] using this
  refine ⟨w, u, rest.map Token.word, words ▸ lexes, fun x hx => spelled x ?_, hu, rfl, left ▸ grown⟩
  rw [words]
  exact List.mem_append_left _ hx

theorem Lexes.unique {cs : List Char} {ws vs : List Word} (h : Lexes cs ws) (h' : Lexes cs vs) : ws = vs := by
  obtain ⟨s, hs, rfl⟩ := @ofText_of_lexes (String.ofList cs) ws (by simpa using h)
  obtain ⟨s', hs', rfl⟩ := @ofText_of_lexes (String.ofList cs) vs (by simpa using h')
  rw [hs] at hs'
  cases hs'
  rfl

theorem TypeContext.Lawful.keep_of_mem {s : StoredType} (hc : c.Lawful) (hs : s ∈ c.stored) (h : s.type.same t = true)
    (ht : t.Made) : (c.keep t).1 = s.type ∧ c.Grows (c.keep t).2 := by
  have direct : (c.intern t).1 = s.type ∧ c.Grows (c.intern t).2 := by
    rw [hc.intern_of_mem hs h]
    exact ⟨rfl, .refl c⟩
  cases t with
  | controlled b n =>
    -- the base is interned first, and may be new; the gate itself is still found
    have grown := grows_intern (c := c) (Ty.made_base b) fun _ _ h => by cases b <;> cases h
    rw [keep_controlled, (grown.lawful hc).intern_of_mem (grown.mem hs) h]
    exact ⟨rfl, grown⟩
  | _ => exact direct

theorem TypeContext.keep_mem (c : TypeContext) (t : Ty) : ⟨(c.keep t).1, []⟩ ∈ (c.keep t).2.stored := by
  cases t <;> exact intern_mem ..

/-- The text is read as the very type that the context keeps, which stays the one that it keeps. -/
def Reading.GivesBack (r : Registry) (c : TypeContext) (s : StoredType) : Prop :=
  (Reading.type r s.type.text c).answer = .ok s.type ∧
    (Reading.type r s.type.text c).context.find? ⟨s.type, []⟩ = some s

theorem Reading.gives_back (hr : r.Sound) {s : StoredType} (hc : c.Lawful) (hs : s ∈ c.stored) (hn : s.type.Numeral)
    (few : ∀ n, s.type.number? = some n → FewDigits n) : Reading.GivesBack r c s := by
  have made := (hc.held s hs).2
  have readable := made.readable_plain few
  have same : s.type.same s.type.plain = true := Ty.same_iff.mpr readable.plain.symm
  obtain ⟨kept, grown⟩ := hc.keep_of_mem hs same readable.made
  obtain ⟨tokens, htokens, hwords⟩ := ofText_of_lexes (Ty.emits_form readable).lexes
  rw [hn.text_plain] at htokens
  have split : Splits s.type.plain.form.words (ParserState.start tokens c .empty).rest [] :=
    ⟨tokens.tokens, (List.append_nil _).symm, hwords⟩
  have first := Parser.yields_typeExpr.mpr ⟨_, _, _, split, Ty.ty?_form hr readable, rfl, rfl⟩
  have read : Parser.Yields (do let t ← Parser.typeExpr r; Parser.expectEnd; return t) (.start tokens c .empty) s.type
      (((ParserState.start tokens c .empty).keeping s.type.plain).facing []) :=
    Parser.yields_bind.mpr ⟨_, _, first, Parser.yields_bind.mpr ⟨(), _, yields_expectEnd rfl,
      Parser.yields_pure.mpr ⟨kept.symm, rfl⟩⟩⟩
  have whole : Reading.type r s.type.text c = _ := run_of_yields htokens read
  rw [GivesBack, whole]
  refine ⟨rfl, ?_⟩
  have left : (((ParserState.start tokens c .empty).keeping s.type.plain).facing []).context =
      (c.keep s.type.plain).2 := by
    simp [ParserState.start]
  rw [left]
  exact (grown.lawful hc).find?_of_mem (grown.mem hs) (Ty.same_self _)

theorem Reading.numeral_of_type_eq_ok (ht : t.Made) (h : (Reading.type r t.text c).answer = .ok t) :
    t.Numeral := by
  by_contra hn
  obtain ⟨odd, base, other⟩ := ht.text_of_not_numeral hn
  obtain ⟨w, u, rest, lexes, -, hu, kept, -⟩ := type_eq_ok h
  have name : IsName t.text := by
    have : ∀ s ∈ ["iTrue", "f16.0", "f32.0", "f64.0"], IsName s := by decide
    exact this _ odd
  have unknown : Parser.builtinType? t.text = none := by
    have : ∀ s ∈ ["iTrue", "f16.0", "f32.0", "f64.0"], Parser.builtinType? s = none := by decide
    exact this _ odd
  -- the text is one word, so that a form can only be a plain name, and none of these is built in
  have words : [⟨.word, t.text⟩] = w.words ++ rest := (emits_name name).lexes.unique lexes
  have same : t.same u = true := kept ▸ TypeContext.keep_same c u
  have gate : u.base? = none := (Ty.base?_eq_of_same same).symm.trans base
  cases w with
  | register k size => simp [TypeSyntax.words] at words
  | controlled k count b => simp [TypeSyntax.words] at words
  | plain k =>
    obtain rfl : t.text = k := by simpa [TypeSyntax.words] using (List.cons.inj words).1
    simp only [TypeSyntax.ty?, TypeSyntax.plainTy?, unknown] at hu
    split at hu
    · cases hu; exact other (Ty.same_iff.mp same)
    · cases hu; cases gate
    · cases hu; cases gate
    · cases hu; cases gate
    · cases hu

end

/-! ## Histories -/

/-- One step of a history: a request, or the reading of a text or of a serialized value, whether it succeeds or
not. The predicate is that of the types which the step gives. -/
inductive TypeContexts.Step (cs : TypeContexts) : (OwnedType → Prop) → TypeContexts → Prop
  | request (c : TyClass) (params : List TypeParam) (context : Option String) {t : OwnedType} {cs' : TypeContexts} :
    (∀ p ∈ params, cs.Has p) → cs.request c params context = .ok (t, cs') → Step cs (· = t) cs'
  | parse (r : Registry) (text name : String) :
    Step cs (fun t => ∃ ty, (Reading.type r text (cs.get name)).answer = .ok ty ∧ t = ⟨⟨ty, []⟩, name⟩)
      (cs.set (Reading.type r text (cs.get name)).context)
  | load (j : Json) :
    Step cs (fun t => ∃ a ty, (Wire.read j cs.default).1 = .ok a ∧ a.Mentions ty ∧ t = ⟨⟨ty, []⟩, cs.default.name⟩)
      (cs.set (Wire.read j cs.default).2)

/-- The contexts after some history, and the types that were given in it. -/
inductive TypeHistory : TypeContexts → (OwnedType → Prop) → Prop
  | start : TypeHistory .start fun _ => False
  | step {cs cs' : TypeContexts} {given gives : OwnedType → Prop} :
    TypeHistory cs given → cs.Step gives cs' → TypeHistory cs' fun t => given t ∨ gives t

section
variable {cs cs' : TypeContexts} {given gives : OwnedType → Prop} {t : OwnedType}

theorem TypeContexts.request_spec (hc : cs.Lawful) {c : TyClass} {params : List TypeParam} {context : Option String}
    (has : ∀ p ∈ params, cs.Has p) (h : cs.request c params context = .ok (t, cs')) : cs.Grows cs' ∧ cs'.Keeps t := by
  obtain ⟨ps, qs, -, hq, has, h⟩ := request_eq_ok has h
  obtain ⟨s, hs, owned, ht, rfl⟩ := intern_eq_ok h
  generalize t.owner = owner at *
  subst ht
  have plain : ∀ p ∈ qs, p.surplus = [] := by
    intro p hp
    cases p with
    | attr a => rfl
    | owned u => exact ((hc u.owner).held _ (has _ hp)).1
  obtain ⟨surplus, made⟩ := made_of_complete hq hs plain
  have takes := takes_of_makes hs has owned
  have grown : (cs.get owner).Grows ((cs.get owner).store s).2 := by
    have base := takes.base
    rw [surplus] at base
    rw [StoredType.eq_of_surplus surplus]
    exact TypeContext.grows_intern made base
  have name : ((cs.get owner).store s).2.name = owner := grown.name.trans name_get
  refine ⟨grows_set (by rwa [name]), ?_⟩
  -- the owner may be a context that did not exist before
  have same : (cs.set ((cs.get owner).store s).2).get owner = ((cs.get owner).store s).2 := by
    have := get_set_self cs ((cs.get owner).store s).2
    rwa [name] at this
  unfold Keeps
  rw [same]
  exact TypeContext.store_mem ..

theorem TypeContexts.set_spec {n : String} {d : TypeContext} (h : (cs.get n).Grows d) :
    cs.Grows (cs.set d) ∧ (cs.set d).get n = d := by
  have name : d.name = n := h.name.trans name_get
  subst name
  exact ⟨grows_set h, get_set_self cs d⟩

/-- What one step does: no context loses a type, and what the step gives is kept. -/
theorem TypeContexts.Step.spec (h : cs.Step gives cs') (hc : cs.Lawful) :
    cs.Grows cs' ∧ ∀ t, gives t → cs'.Keeps t := by
  cases h with
  | request c params context has h =>
    obtain ⟨grown, kept⟩ := request_spec hc has h
    refine ⟨grown, ?_⟩
    rintro t rfl
    exact kept
  | parse r text name =>
    obtain ⟨grown, same⟩ := set_spec (Reading.grows_type r text (cs.get name))
    refine ⟨grown, ?_⟩
    rintro t ⟨ty, answer, rfl⟩
    obtain ⟨w, u, rest, -, -, -, rfl, left⟩ := Reading.type_eq_ok answer
    unfold Keeps
    rw [same]
    exact left.mem ((cs.get name).keep_mem u)
  | load j =>
    have loaded : (cs.get cs.default.name).Grows (Wire.read j cs.default).2 := by
      rw [cs.get_default]
      exact Wire.grows_read j cs.default
    obtain ⟨grown, same⟩ := set_spec loaded
    refine ⟨grown, ?_⟩
    rintro t ⟨a, ty, answer, mentioned, rfl⟩
    unfold Keeps
    rw [same]
    exact Wire.kept_read (Prod.ext answer rfl) ty mentioned

/-- After any history all contexts are as interning leaves them, and all types that were given are kept. -/
theorem TypeHistory.lawful (h : TypeHistory cs given) : cs.Lawful ∧ ∀ t, given t → cs.Keeps t := by
  induction h with
  | start => exact ⟨TypeContexts.lawful_start, nofun⟩
  | step _ hstep ih =>
    obtain ⟨lawful, kept⟩ := ih
    obtain ⟨grown, new⟩ := hstep.spec lawful
    refine ⟨grown.lawful lawful, ?_⟩
    rintro t (ht | ht)
    · exact (grown.2 t.owner).mem (kept t ht)
    · exact new t ht

/-- **Types and their texts.** After any history, a type that was given in it is kept by its context, it is given
back for its text exactly if its width, if it has one, is given as an integer, and exactly then its text is one of
the texts of types. -/
theorem TypeHistory.reads_back_iff (h : TypeHistory cs given) (ht : given t) {r : Registry} (hr : r.Sound)
    (few : ∀ n, t.type.number? = some n → FewDigits n) :
    cs.Keeps t ∧ (Reading.GivesBack r (cs.get t.owner) t.toStoredType ↔ t.type.Numeral) ∧
      (TypeText t.type.text ↔ t.type.Numeral) := by
  obtain ⟨lawful, kept⟩ := h.lawful
  have keeps := kept t ht
  have made := ((lawful t.owner).held _ keeps).2
  refine ⟨keeps, ⟨fun back => ?_, fun numeral => ?_⟩, made.typeText_iff⟩
  · exact Reading.numeral_of_type_eq_ok made back.1
  · exact Reading.gives_back hr (lawful t.owner) keeps numeral few

end

/-- A truth value for the width of an integer is accepted, and the text of that type is then none that is read; a
register of the same context is given back. -/
theorem TypeHistory.reads_back_iff_truthWidth :
    ∃ (cs : TypeContexts) (given : OwnedType → Prop) (t u : OwnedType), TypeHistory cs given ∧ given t ∧ given u ∧
      t.type.text = "iTrue" ∧ ¬ TypeText t.type.text ∧
      ¬ Reading.GivesBack .standard (cs.get t.owner) t.toStoredType ∧
      u.type.text = "register<3>" ∧ Reading.GivesBack .standard (cs.get u.owner) u.toStoredType := by
  have history : TypeHistory ⟨.default, [⟨"c", [⟨.integer ⟨1, .bool⟩, []⟩, ⟨.register (some 3), []⟩]⟩]⟩ _ :=
    .step (.step .start (.request .integer [.attr (.bool true)] (some "c")
      (by simp [TypeContexts.Has, Attr.type?]) rfl))
      (.request .register [.attr (.int 3)] (some "c") (by simp [TypeContexts.Has, Attr.type?]) rfl)
  obtain ⟨-, back, text⟩ := history.reads_back_iff (.inl (.inr rfl)) Registry.sound_standard nofun
  have few : ∀ n, (Ty.register (some 3)).number? = some n → FewDigits n := by
    intro n hn
    cases hn
    exact Nat.lt_of_lt_of_le (show 3 < 10 ^ 1 by decide)
      (Nat.pow_le_pow_right (by decide) (show 1 ≤ maxIntegerDigits by decide))
  obtain ⟨-, back', -⟩ := history.reads_back_iff (.inr rfl) Registry.sound_standard few
  exact ⟨_, _, _, _, history, .inl (.inr rfl), .inr rfl, rfl, fun h => absurd (text.mp h) (by decide),
    fun h => absurd (back.mp h) (by decide), rfl, back'.mpr trivial⟩

end GateAsm
