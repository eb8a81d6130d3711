import GateAsm.Proofs.Diagnosed
import GateAsm.Proofs.Drawn
import GateAsm.Proofs.Innocent
import GateAsm.Proofs.Naming

/-!
# Modules that break the rules about names

An instruction stops with an error about the name of a value only if it really breaks a rule: a name that it
binds is taken, by an instruction in front of it or by itself, or a name is used at another type than it has.
The first error is found where result names are checked, the second where references are bound.
-/

namespace GateAsm

/-! ## Instructions up to the types of operands -/

def BodySyntax.opening : BodySyntax → List Word
  | generic g => g.angle.words ++ (GroupSyntax.operandWords g.operands ++
      (bracedWords g.tags ++ TypeSyntax.marked .colon g.types))
  | call g => g.front ++ (bracedWords g.tags ++ TypeSyntax.marked .colon g.types)

def LineSyntax.opening (x : LineSyntax) : List Word := nameWords x.names ++ (⟨.word, x.mnemonic⟩ :: x.body.opening)

/-! ## Uses that clash -/

namespace Block

variable {b : Block} {use : String × Ty} {uses : List (String × Ty)} {n : String} {u : Ty}

/-- The name is used at another type than in a use in front of it, or than the value that it stands for. -/
def Clashes (b : Block) (uses : List (String × Ty)) (n : String) : Prop :=
  ∃ front t back u, uses = front ++ (n, t) :: back ∧
    ((n, u) ∈ front ∨ ∃ id, b.lookup n = some id ∧ b.typeOf id = .type u) ∧ u.same t = false

theorem type_mention (hb : b.WellScoped) (hn : Visible n) {id : Nat} (hl : (b.mention use).lookup n = some id)
    (ht : (b.mention use).typeOf id = .type u) : use = (n, u) ∨ ∃ id, b.lookup n = some id ∧ b.typeOf id = .type u := by
  obtain ⟨m, t⟩ := use
  cases hold : b.lookup n with
  | some old =>
    rw [lookup_mention_of_some hn hold] at hl
    obtain rfl := Option.some.inj hl
    refine .inr ⟨old, rfl, ?_⟩
    rw [← (extends_mention (b := b) (m, t)).typeOf old (lookup_lt hb hold)]
    exact ht
  | none =>
    by_cases same : m = n
    · subst same
      rw [lookup_mention_self hn, hold] at hl
      obtain rfl := Option.some.inj hl
      have entered : b.mention (m, t) = b.withInput m t := if_neg (by rw [hold]; exact nofun)
      rw [entered, show (none : Option Nat).getD b.values.length = b.values.length from rfl, typeOf_withInput] at ht
      exact .inl (by rw [Attr.type.inj ht])
    · have kept : (b.mention (m, t)).lookup n = b.lookup n := lookup_mention_of_ne hn same
      rw [kept, hold] at hl
      cases hl

theorem Clashes.cons (hb : b.WellScoped) (hn : Visible n) (h : (b.mention use).Clashes uses n) :
    b.Clashes (use :: uses) n := by
  obtain ⟨front, t, back, u, rfl, prior, differ⟩ := h
  refine ⟨use :: front, t, back, u, rfl, ?_, differ⟩
  rcases prior with prior | ⟨id, hl, htype⟩
  · exact .inl (List.mem_cons_of_mem _ prior)
  · refine (type_mention hb hn hl htype).imp_left fun same => ?_
    rw [same]
    exact List.mem_cons_self

end Block

namespace Parser

variable {env : ParserEnv} {expected : Option Kind} {kind : Kind} {registry : Registry} {s t : ParserState}
  {e : ParseError} {α β : Type}

theorem Innocent.behind {p : Parser α} {f : α → Parser β} (hp : Innocent p) (he : ¬ e.cause.Other)
    (h : (p >>= f) s = (.error (.error e), t)) : ∃ a u, Yields p s a u ∧ f a u = (.error (.error e), t) := by
  rcases bind_eq_error.mp h with h | h
  · exact absurd (hp s e t h) he
  · exact h

theorem Innocent.front {p : Parser α} {f : α → Parser β} (hf : ∀ a, Innocent (f a)) (he : ¬ e.cause.Other)
    (h : (p >>= f) s = (.error (.error e), t)) : p s = (.error (.error e), t) := by
  rcases bind_eq_error.mp h with h | ⟨a, u, -, h⟩
  · exact h
  · exact absurd (hf a u e t h) he

/-! ## References -/

def ConflictAt (e : ParseError) (n : String) : Prop := ∃ given prior, e.cause = .typeConflict n given prior

theorem bindName_error {r : Reference} {ty : Ty} (ht : s.block.HoldsTypes) (he : ¬ e.cause.Other)
    (h : Parser.bind registry r ty s = (.error (.error e), t)) : e.location = r.location ∧ ConflictAt e r.name ∧
      ∃ id u, s.block.lookup r.name = some id ∧ s.block.typeOf id = .type u ∧ u.same ty = false := by
  unfold Parser.bind at h
  rw [get_bind_apply] at h
  cases hl : s.block.lookup r.name with
  | none =>
    rw [hl] at h
    exact absurd (innocent_changeBlock _ s e t h) he
  | some id =>
    rw [hl] at h
    obtain ⟨u, htype⟩ := ht.lookup hl
    obtain ⟨same, v, hsame, h⟩ := (innocent_orStop _).behind he h
    obtain ⟨hsame, rfl⟩ := yields_orStop.mp hsame
    rw [ofAttr_eq_ok, htype, Attr.isType] at hsame
    obtain rfl := Except.ok.inj hsame
    cases differ : u.same ty with
    | true =>
      rw [differ] at h
      cases h
    | false =>
      rw [differ, if_neg Bool.false_ne_true] at h
      obtain ⟨given, w, -, h⟩ := (innocent_orStop _).behind he h
      obtain ⟨prior, x, -, h⟩ := (innocent_orStop _).behind he h
      cases h
      exact ⟨rfl, ⟨_, _, rfl⟩, id, u, rfl, htype, differ⟩

theorem bindAll_error {rs : List Reference} {tys : List Ty} (hb : s.block.WellScoped) (ht : s.block.HoldsTypes)
    (hv : ∀ r ∈ rs, Block.Visible r.name) (he : ¬ e.cause.Other)
    (h : bindAll registry rs tys s = (.error (.error e), t)) :
    ∃ r ∈ rs, e.location = r.location ∧ ConflictAt e r.name ∧ s.block.Clashes ((rs.map (·.name)).zip tys) r.name := by
  induction rs generalizing s tys with
  | nil =>
    cases tys with
    | nil => cases h
    | cons ty tys => cases h
  | cons r rs ih =>
    cases tys with
    | nil => cases h
    | cons ty tys =>
      rcases bind_eq_error.mp h with first | ⟨id, u, hone, h⟩
      · obtain ⟨place, conflict, id, u, hl, htype, differ⟩ := bindName_error ht he first
        exact ⟨r, List.mem_cons_self, place, conflict, [], ty, _, u, rfl, .inr ⟨id, hl, htype⟩, differ⟩
      · obtain ⟨-, -, rfl⟩ := (yields_bindName (hv r List.mem_cons_self)).mp hone
        have others := Innocent.front (fun ids => innocent_pure (id :: ids)) he h
        obtain ⟨r', hr', place, conflict, clash⟩ := ih (Block.wellScoped_mention hb (r.name, ty))
          (ht.mentionAll hb [(r.name, ty)]) (fun r hr => hv r (List.mem_cons_of_mem _ hr)) others
        have visible := hv r' (List.mem_cons_of_mem _ hr')
        exact ⟨r', List.mem_cons_of_mem _ hr', place, conflict, clash.cons hb visible⟩

theorem boundOperands_error {ops : List (Reference × Bool)} {flagged : List (String × Bool)}
    (hops : ops.map (fun o => (o.1.name, o.2)) = flagged) (hb : s.block.WellScoped) (ht : s.block.HoldsTypes)
    (hv : ∀ o ∈ flagged, Block.Visible o.1) (he : ¬ e.cause.Other)
    (h : boundOperands env kind ops s = (.error (.error e), t)) :
    ∃ es user ws types mid rest, Splits (bracedWords es) s.rest mid ∧ Splits (TypeSyntax.marked .colon ws) mid rest ∧
      tagValues? (es.getD []) = some user ∧ Addable kind.structuralTags s.tags user ∧
      TypeSyntax.tys? env.registry ws = some types ∧ types.length = (flagged.filter (!·.2)).length ∧
      ∃ o ∈ ops, e.location = o.1.location ∧ ConflictAt e o.1.name ∧
        s.block.Clashes (typedUses s.context flagged types) o.1.name := by
  have visible : ∀ r ∈ ops.map (·.1), Block.Visible r.name := by
    intro r hr
    obtain ⟨o, ho, rfl⟩ := List.mem_map.mp hr
    exact hv _ (hops ▸ List.mem_map_of_mem (f := fun o : Reference × Bool => (o.1.name, o.2)) ho)
  obtain ⟨⟨⟩, u, htags, h⟩ := (innocent_optionalTags _).behind he h
  obtain ⟨es, user, mid, hes, huser, hadd, -, rfl⟩ := yields_optionalTags.mp htags
  obtain ⟨kept, v, htypes, h⟩ := (innocent_countedTypes _ _).behind he h
  obtain ⟨htypes, hcount⟩ := yields_countedTypes.mp htypes
  obtain ⟨ws, types, rest, hws, htys, -, rfl, rfl⟩ := yields_colonTypes.mp htypes
  obtain ⟨i, w, hintern, h⟩ := (innocent_intern _).behind he h
  obtain ⟨rfl, rfl⟩ := yields_intern.mp hintern
  obtain ⟨r, hr, place, conflict, clash⟩ := bindAll_error (by simpa using hb) (by simpa using ht) visible he h
  obtain ⟨o, ho, rfl⟩ := List.mem_map.mp hr
  refine ⟨es, user, ws, types, mid, rest, hes, hws, huser, hadd, htys, ?_, o, ho, place, conflict, ?_⟩
  · rw [← filter_flags hops, ← hcount, length_keepAll]
  · rw [← hops]
    simpa [typedUses, indexAfter, Function.comp_def] using clash

/-! ## Operands -/

theorem nameAt_within {before part behind used rest : List Token} {n : String} {place : Location}
    (h : NameAt part n place) (hs : before ++ (part ++ (behind ++ rest)) = used ++ rest) : NameAt used n place := by
  simp only [← List.append_assoc] at hs
  refine h.mono ?_
  rw [← List.append_cancel_right hs]
  exact fun x hx => List.mem_append_left _ (List.mem_append_right _ hx)

theorem mem_physicalOperands {found : Angle} {given : List SlotOperand} {o : Reference × Bool}
    (h : o ∈ physicalOperands found given) : o.1 ∈ found.references ∨ o.1 ∈ slotReferences given := by
  rcases List.mem_append.mp h with h | h
  · obtain ⟨r, hr, rfl⟩ := List.mem_map.mp h
    exact .inl hr
  · obtain ⟨x, hx, h⟩ := List.mem_flatMap.mp h
    refine .inr (List.mem_flatMap.mpr ⟨x, hx, ?_⟩)
    rcases List.mem_cons.mp h with rfl | h
    · exact List.mem_cons_self
    · obtain ⟨r, hr, rfl⟩ := List.mem_map.mp h
      exact List.mem_cons_of_mem _ hr

theorem mem_callOperands {as : List Argument} {o : Reference × Bool} (h : o ∈ callOperands as) :
    o.1 ∈ argumentReferences as := by
  rcases List.mem_append.mp h with h | h
  · obtain ⟨a, ha, rfl⟩ := List.mem_map.mp h
    exact List.mem_flatMap.mpr ⟨a, ha, List.mem_cons_self⟩
  · obtain ⟨r, hr, rfl⟩ := List.mem_map.mp h
    obtain ⟨a, ha, hr⟩ := List.mem_flatMap.mp hr
    exact List.mem_flatMap.mpr ⟨a, ha, List.mem_cons_of_mem _ hr⟩

/-- The tokens are what stands behind a mnemonic up to the types of the operands, and hold a name, at the place of
the error, that clashes with the scope or with the other operands. -/
def Conflicts (env : ParserEnv) (kind : Kind) (s : ParserState) (e : ParseError) (used : List Token) (g : BodySyntax)
    (m : Statement) : Prop :=
  used.map Token.word = g.opening ∧ g.States env kind m ∧
    ∃ n, NameAt used n e.location ∧ ConflictAt e n ∧ s.block.Clashes (m.uses s.context) n

theorem boundContent_error {c : Content String} {ops : List (Reference × Bool)} {front : List Word} {v : ParserState}
    (hops : ops.map (fun o => (o.1.name, o.2)) = c.flagged) (fits : c.Fits kind) (htags : v.tags = c.structural kind)
    (block : v.block = s.block) (context : v.context = s.context) (visible : ∀ n ∈ c.physical, Block.Visible n)
    (hb : s.block.WellScoped) (ht : s.block.HoldsTypes) (he : ¬ e.cause.Other) (words : Splits front s.rest v.rest)
    (h : boundOperands env kind ops v = (.error (.error e), t)) :
    ∃ es user ws types used behind rest, s.rest = used ++ rest ∧ v.rest = behind ++ rest ∧
      used.map Token.word = front ++ (bracedWords es ++ TypeSyntax.marked .colon ws) ∧
      tagValues? (es.getD []) = some user ∧ Addable kind.structuralTags [] user ∧
      TypeSyntax.tys? env.registry ws = some types ∧ types.length = c.mains.length ∧
      ∃ o ∈ ops, e.location = o.1.location ∧ ConflictAt e o.1.name ∧
        s.block.Clashes (typedUses s.context c.flagged types) o.1.name := by
  rw [← block] at hb ht
  obtain ⟨es, user, ws, types, mid, rest, hes, hws, huser, hadd, htys, hcount, clash⟩ :=
    boundOperands_error hops hb ht (visible_flagged visible) he h
  obtain ⟨behind, hbehind, -⟩ := hes.append hws
  obtain ⟨used, hused, hwords⟩ := words.append (hes.append hws)
  rw [htags] at hadd
  rw [block, context] at clash
  refine ⟨es, user, ws, types, used, behind, rest, hused, hbehind, hwords, huser, ?_, htys, ?_, clash⟩
  · exact (addable_reserved_iff (Content.structural_reserved fits)).mp hadd
  · rw [hcount, Content.mains_eq_filter, List.length_map]

theorem operandGroup_error (hk : kind.Valid) (hcall : kind.callForm = false) (hb : s.block.WellScoped)
    (ht : s.block.HoldsTypes) (hv : VisibleTokens s.rest) (he : ¬ e.cause.Other)
    (h : operandGroup env kind s = (.error (.error e), t)) :
    ∃ used rest g m, s.rest = used ++ rest ∧ Conflicts env kind s e used g m := by
  obtain ⟨found, u, hfound, h⟩ := (innocent_optionalAngle env kind).behind he h
  obtain ⟨place, v, hplace, h⟩ := innocent_location.behind he h
  obtain ⟨-, rfl⟩ := yields_location.mp hplace
  obtain ⟨given, w, hgiven, h⟩ := (innocent_operandList kind).behind he h
  obtain ⟨⟨⟩, x, hleast, later⟩ := Innocent.behind (innocent_require _ _ (by trivial)) he h
  obtain ⟨hleast, rfl⟩ := yields_require.mp hleast
  obtain ⟨⟨⟩, y, hmodify, last⟩ := (innocent_modify _).behind he later
  obtain rfl := yields_modify.mp hmodify
  have bound := Innocent.front
    (fun _ => (innocent_arrowTypes _).bind fun _ => innocent_get.bind fun _ => innocent_pure _) he last
  obtain ⟨wa, os, a, fs, front⟩ := groupFront_sound hcall hv hfound hgiven (by simpa using hleast)
  obtain ⟨mid, hangle, hoperands, -⟩ := front.words
  obtain ⟨es, user, ws, types, used, behind, rest, hused, hbehind, words, huser, hown, htys, hcount, o, ho,
      place, conflict, clash⟩ := boundContent_error (physicalOperands_eq front.stands front.given) front.fits
      (v := x.withTags (structuralAttrs kind found given)) (structuralAttrs_eq hk front.stands front.given) front.block
      front.context front.visible hb ht he (hangle.append hoperands) bound
  rw [List.append_assoc] at words
  refine ⟨used, rest, .generic ⟨wa, os, es, ws, []⟩, ⟨⟨.generic a, fs⟩, types, user, []⟩, hused, words,
    ⟨hcall, ?_⟩, o.1.name, ?_, conflict, clash⟩
  · exact ⟨front.rotation, front.slots, front.least, ⟨a, fs, front.angle, front.fillers, rfl⟩, huser, hown,
      htys, hcount, rfl⟩
  · obtain ⟨first, hfirst, angle⟩ := (draws_optionalAngle env kind).all hfound
    obtain ⟨second, hsecond, operands⟩ := (draws_operandList kind).all hgiven
    have all : first ++ (second ++ (behind ++ rest)) = used ++ rest := by
      rw [← hused, hfirst, hsecond, ← hbehind]
      rfl
    rw [place]
    rcases mem_physicalOperands ho with ho | ho
    · have flat : [] ++ (first ++ ((second ++ behind) ++ rest)) = used ++ rest := by rwa [List.append_assoc second]
      exact nameAt_within (angle _ ho) flat
    · exact nameAt_within (operands _ ho) all

theorem callForm_error (hcall : kind.callForm = true) (hb : s.block.WellScoped)
    (ht : s.block.HoldsTypes) (hv : VisibleTokens s.rest) (he : ¬ e.cause.Other)
    (h : callForm env kind s = (.error (.error e), t)) :
    ∃ used rest g m, s.rest = used ++ rest ∧ Conflicts env kind s e used g m := by
  obtain ⟨callee, u, hcallee, h⟩ := innocent_symbol.behind he h
  obtain ⟨y, u1, hopen, h⟩ := (innocent_expect _).behind he h
  obtain ⟨n, u2, hn, h⟩ := (innocent_integer _).behind he h
  rw [get_bind_apply] at h
  obtain ⟨as, u3, has, h⟩ := (innocent_arguments _).behind he h
  obtain ⟨z, u4, hclose, h⟩ := (innocent_expect _).behind he h
  obtain ⟨⟨⟩, u5, hsegments, later⟩ := (innocent_checkSegments _).behind he h
  obtain ⟨hsmall, rfl⟩ := yields_checkSegments.mp hsegments
  obtain ⟨⟨⟩, u6, hmodify, last⟩ := (innocent_modify _).behind he later
  obtain rfl := yields_modify.mp hmodify
  have bound := Innocent.front (fun _ => (innocent_expect _).bind fun _ => (innocent_typeExpr _).bind fun _ =>
    innocent_get.bind fun _ => innocent_pure _) he last
  obtain ⟨name, digits, os, fs, front⟩ := callFront_sound hcall hv hcallee hopen hn has hclose hsmall
  obtain ⟨es, user, ws, types, used, behind, rest, hused, hbehind, words, huser, hown, htys, hcount, o, ho,
      place, conflict,
    clash⟩ := boundContent_error (v := u5.withTags (callAttrs callee n as)) (callOperands_eq front.stands) front.fits
      (callAttrs_eq kind front.stands) front.block front.context front.visible hb ht he front.words bound
  -- the type of the result is not read, and any other one would do
  refine ⟨used, rest, .call ⟨name, digits, os, es, ws, .plain "index"⟩,
    ⟨⟨.call callee n, fs⟩, types, user, [.index]⟩, hused, words, ⟨hcall, ?_⟩, o.1.name, ?_, conflict, clash⟩
  · exact ⟨⟨n, fs, front.number, front.fillers, by rw [front.symbol]⟩, front.fits.2.2, huser, hown, htys, hcount,
      .index, rfl, rfl⟩
  · obtain ⟨before, hbefore⟩ :=
      (((frame_suffix.integer _).yields hn).trans ((frame_suffix.expect _).yields hopen)).trans
        (frame_suffix.symbol.yields hcallee)
    obtain ⟨inside, hinside, references⟩ := (draws_arguments _).all has
    obtain ⟨close, hclose⟩ := (frame_suffix.expect _).yields hclose
    have all : before ++ (inside ++ ((close ++ behind) ++ rest)) = used ++ rest := by
      rw [← hused, ← hbefore, hinside, ← hclose, List.append_assoc close, ← hbehind]
      rfl
    rw [place]
    exact nameAt_within (references _ (mem_callOperands ho)) all

theorem operationBody_error (hk : kind.Valid) (hb : s.block.WellScoped) (ht : s.block.HoldsTypes)
    (hv : VisibleTokens s.rest) (he : ¬ e.cause.Other) (h : operationBody env kind s = (.error (.error e), t)) :
    ∃ used rest g m, s.rest = used ++ rest ∧ Conflicts env kind s e used g m := by
  unfold operationBody at h
  cases hcall : kind.callForm with
  | true =>
    rw [if_pos hcall] at h
    exact callForm_error hcall hb ht hv he h
  | false =>
    rw [if_neg (by simp [hcall])] at h
    exact operandGroup_error hk hcall hb ht hv he h

/-! ## Result names -/

theorem checkResultNames_error {seen : List String} {ts : List Token}
    (h : checkResultNames seen ts s = (.error (.error e), t)) :
    ∃ front y back, ts = front ++ y :: back ∧ e = ⟨.redefinition y.text, y.location⟩ ∧
      (y.text ∈ seen ∨ y.text ∈ front.map (·.text) ∨ (s.block.lookup y.text).isSome = true) := by
  induction ts generalizing seen with
  | nil => cases h
  | cons y ts ih =>
    rw [checkResultNames, get_bind_apply] at h
    rcases bind_eq_error.mp h with refused | ⟨⟨⟩, u, passed, later⟩
    · refine ⟨[], y, ts, rfl, ?_, ?_⟩
      · unfold require at refused
        split at refused
        · cases refused
        · cases refused
          rfl
      · unfold require at refused
        split at refused
        · cases refused
        · next taken =>
          simp only [Bool.not_eq_true, Bool.not_eq_false', Bool.or_eq_true, List.contains_eq_mem, decide_eq_true_eq]
            at taken
          exact taken.imp_right .inr
    · obtain ⟨-, rfl⟩ := yields_require.mp passed
      obtain ⟨front, z, back, rfl, rfl, taken⟩ := ih later
      refine ⟨y :: front, z, back, rfl, rfl, ?_⟩
      rcases taken with taken | taken | taken
      · rcases List.mem_cons.mp taken with same | taken
        · exact .inr (.inl (List.mem_cons.mpr (.inl same)))
        · exact .inl taken
      · exact .inr (.inl (List.mem_cons_of_mem _ taken))
      · exact .inr (.inr taken)

/-! ## Instructions -/

/-- The instruction binds a name that it has bound already, that it uses, or that is in scope. -/
def Rebinds (b : Block) (l : Line) (n : String) : Prop :=
  ∃ front back, l.names = front ++ n :: back ∧ (n ∈ front ∨ n ∈ l.used ∨ (b.lookup n).isSome = true)

/-- What breaks a rule in an instruction: a name that it binds, when all of it is read, or one that it uses, when
it is read up to the types of its operands. -/
def Breaks (s : ParserState) (e : ParseError) (used : List Token) (x : LineSyntax) (l : Line) : Prop :=
  ∃ n, NameAt used n e.location ∧
    ((e.cause = .redefinition n ∧ used.map Token.word = x.words ∧ Rebinds s.block l n) ∨
      (ConflictAt e n ∧ used.map Token.word = x.opening ∧ s.block.Clashes (l.statement.uses s.context) n))

theorem instructionBody_error (hk : ∀ x k, KindFor env.registry expected x k → k.Valid) (hb : s.block.WellScoped)
    (ht : s.block.HoldsTypes) (hv : VisibleTokens s.rest) (he : ¬ e.cause.Other)
    (h : instructionBody env expected s = (.error (.error e), t)) :
    ∃ used rest x l, s.rest = used ++ rest ∧ x.States env expected l ∧ Breaks s e used x l := by
  obtain ⟨ts, u, hnames, h⟩ := innocent_resultNames.behind he h
  obtain ⟨first, hfirst, drawn⟩ := draws_resultNames.all hnames
  obtain ⟨r₁, hs₁, rfl⟩ := resultNames_sound hnames
  obtain ⟨k, u, hmnemonic, h⟩ := (innocent_mnemonic env expected).behind he h
  obtain ⟨x, r₂, hr, hx, hkind, rfl⟩ := yields_mnemonic.mp hmnemonic
  have hs₂ : Splits [⟨.word, x.text⟩] r₁ r₂ := (splits_single rfl).mpr ⟨x, hr, hx, rfl⟩
  have visible : VisibleTokens r₂ := hv.sublist (hs₁.append hs₂).sublist
  -- the error is one of the operands, or one of the result names behind the whole instruction
  rcases bind_eq_error.mp h with conflict | ⟨st, v, hbody, h⟩
  · obtain ⟨used, rest, g, m, hrest, words, states, n, place, cause, clash⟩ :=
      operationBody_error (s := (s.facing r₁).facing r₂) (hk _ _ hkind) hb ht visible he conflict
    obtain ⟨front, hfront, hwords⟩ := hs₁.append hs₂
    refine ⟨front ++ used, rest, ⟨ts.map (·.text), x.text, g⟩, ⟨ts.map (·.text), k, m⟩, ?_, ⟨rfl, hkind, states⟩, n,
      place.mono (List.subset_append_right _ _), .inr ⟨cause, ?_, clash⟩⟩
    · rw [hfront, List.append_assoc, ← show r₂ = used ++ rest from hrest]
    · rw [List.map_append, hwords, words, List.append_assoc]
      rfl
  · obtain ⟨g, m, hs₃, -, states, -, -, hblock, -⟩ :=
      operationBody_sound (s := (s.facing r₁).facing r₂) (hk _ _ hkind) hb visible hbody
    obtain ⟨⟨⟩, w, hcount, last⟩ := (innocent_checkResultCount _ ts).behind he h
    obtain ⟨-, rfl⟩ := yields_checkResultCount.mp hcount
    have refused := Innocent.front (fun _ => (innocent_changeBlock _).bind fun _ => (innocent_record _).bind fun _ =>
      innocent_pure _) he last
    obtain ⟨front, y, back, rfl, rfl, taken⟩ := checkResultNames_error refused
    obtain ⟨used, hused, words⟩ := hs₁.append (hs₂.append hs₃)
    obtain ⟨behind, hbehind, -⟩ := hs₂.append hs₃
    -- the refused name is a token in front of the equal sign
    have place : NameAt used y.text y.location := by
      have here := drawn ⟨y.text, y.location⟩ (List.mem_map.mpr ⟨y, List.mem_append_right _ List.mem_cons_self, rfl⟩)
      have all : [] ++ (first ++ (behind ++ w.rest)) = used ++ w.rest := by
        rw [← hused, hfirst, ← hbehind]
        rfl
      exact nameAt_within here all
    refine ⟨used, w.rest, ⟨(front ++ y :: back).map (·.text), x.text, g⟩,
      ⟨(front ++ y :: back).map (·.text), k, m⟩, hused,
      ⟨rfl, hkind, states⟩, y.text, place, .inl ⟨rfl, words, front.map (·.text), back.map (·.text), ?_, ?_⟩⟩
    · rw [List.map_append, List.map_cons]
    · rcases taken with taken | taken | taken
      · exact absurd taken List.not_mem_nil
      · exact .inl taken
      · obtain ⟨z, hz, hkz, htext, -⟩ := place
        have hy : Block.Visible y.text := htext ▸ hv z (by rw [hused]; exact List.mem_append_left _ hz) hkz
        rw [show w.block = _ from hblock, Block.isSome_lookup_mentionAll hy, states.lawful.names_uses] at taken
        exact .inr taken.symm

theorem instruction_breaks (hk : ∀ x k, KindFor env.registry expected x k → k.Valid) (hb : s.block.WellScoped)
    (ht : s.block.HoldsTypes) (hv : VisibleTokens s.rest) (he : ¬ e.cause.Other)
    (h : instruction env expected s = (.error (.error e), t)) :
    ∃ used rest x l, s.rest = used ++ rest ∧ x.States env expected l ∧ Breaks s e used x l := by
  obtain ⟨u, hbody⟩ := instruction_of_error h
  exact instructionBody_error (s := s.withTags []) hk hb ht hv he hbody

/-! ## Modules -/

theorem mem_nameWords {ns : List String} {n : String} (h : n ∈ ns) : ⟨.valueName, n⟩ ∈ LineSyntax.nameWords ns := by
  cases ns with
  | nil => cases h
  | cons m ns => exact List.mem_append_left _ (mem_listed (List.mem_map_of_mem h) List.mem_cons_self)

theorem textual_of_splits {xs : List (LineSyntax × Line)} {ts rest : List Token} (hv : VisibleTokens ts)
    (hs : Splits (xs.flatMap (·.1.words)) ts rest) (hx : ∀ x ∈ xs, x.1.States env none x.2) :
    ∀ l ∈ xs.map (·.2), l.Textual := by
  intro l hl
  obtain ⟨x, hmem, rfl⟩ := List.mem_map.mp hl
  have visible : ∀ n, ⟨.valueName, n⟩ ∈ x.1.words → Block.Visible n := fun n hn =>
    hv.of_splits hs (List.mem_flatMap.mpr ⟨x, hmem, hn⟩)
  have states := hx x hmem
  refine ⟨states.body.lawful, fun n hn => ?_, fun n hn => ?_⟩
  · exact visible n (List.mem_append_right _ (List.mem_cons_of_mem _ (states.body.written hn)))
  · rw [← states.names] at hn
    exact visible n (List.mem_append_left _ (mem_nameWords hn))

theorem firstInstructions_sound {n : Nat} (hk : ∀ x k, env.registry.kind? x = some k → k.Valid)
    (hb : s.block.WellScoped) (hv : VisibleTokens s.rest) (h : Yields (firstInstructions env n) s () t) :
    ∃ xs : List (LineSyntax × Line), Splits (xs.flatMap (·.1.words)) s.rest t.rest ∧
      (∀ x ∈ xs, x.1.States env none x.2) ∧ Line.RunAll (xs.map (·.2)) s.context s.block t.block := by
  induction n generalizing s with
  | zero =>
    obtain ⟨-, rfl⟩ := yields_pure.mp h
    exact ⟨[], Splits.nil_iff.mpr rfl, List.forall_mem_nil _, rfl⟩
  | succ n ih =>
    rw [firstInstructions, yields_bind] at h
    obtain ⟨op, u, hone, h⟩ := h
    obtain ⟨x, l, hs, -, hx, hrun, hctx, -⟩ := instruction_sound
      (show ∀ x k, KindFor env.registry none x k → k.Valid from hk) hb hv hone
    obtain ⟨xs, hs', hxs, hall⟩ := ih (hrun.wellScoped hb) (hv.sublist hs.sublist) h
    refine ⟨(x, l) :: xs, hs.append hs', ?_, u.block, hrun, ?_⟩
    · exact List.forall_mem_cons.mpr ⟨hx, hxs⟩
    · rw [← hctx]
      exact hall

end Parser

namespace Line

variable {ls : List Line} {l : Line} {c : TypeContext} {b b' : Block} {n : String}

/-- The line binds a name twice, or one that it uses, or one that a line in front of it has bound or used. -/
def Rebinds (ls : List Line) (l : Line) (n : String) : Prop :=
  ∃ front back, l.names = front ++ n :: back ∧
    (n ∈ front ∨ n ∈ l.used ∨ n ∈ ls.flatMap names ∨ n ∈ ls.flatMap used)

/-- The line uses a name at another type than further in front or than a line in front of it. -/
def Retypes (ls : List Line) (l : Line) (n : String) : Prop :=
  ∃ front t back u, l.statement.writtenUses = front ++ (n, t) :: back ∧
    ((n, u) ∈ front ∨ (n, u) ∈ ls.flatMap typings) ∧ u.same t = false

theorem RunAll.runs (h : RunAll ls c b b') (hl : l ∈ ls) : ∃ c b b', l.Runs c b b' := by
  induction ls generalizing c b with
  | nil => cases hl
  | cons l' ls ih =>
    obtain ⟨b₁, first, others⟩ := h
    rcases List.mem_cons.mp hl with rfl | hl
    · exact ⟨c, b, b₁, first⟩
    · exact ih others hl

theorem Runs.exists_typing (h : l.Runs c b b') (hl : l.Textual) (hn : n ∈ l.names ∨ n ∈ l.used) :
    ∃ t, (n, t) ∈ l.typings := by
  rcases hn with hn | hn
  · obtain ⟨i, hi, rfl⟩ := List.mem_iff_getElem.mp hn
    have count : l.names.length = l.statement.results.length := by
      refine h.count.resolve_left fun none => ?_
      rw [none] at hi
      exact absurd hi (Nat.not_lt_zero i)
    have hr : i < l.statement.results.length := count ▸ hi
    refine ⟨l.statement.results[i], List.mem_append_right _ (List.mem_iff_getElem?.mpr ⟨i, ?_⟩)⟩
    exact List.getElem?_zip_eq_some.mpr ⟨List.getElem?_eq_getElem hi, List.getElem?_eq_getElem hr⟩
  · rw [used, ← hl.lawful.used] at hn
    obtain ⟨⟨n, t⟩, ht, rfl⟩ := List.mem_map.mp hn
    exact ⟨t, List.mem_append_left _ ht⟩

theorem Carries.rebinds (h : Carries ls b) (hn : Parser.Rebinds b l n) : l.Rebinds ls n := by
  obtain ⟨front, back, bound, taken⟩ := hn
  refine ⟨front, back, bound, taken.imp_right fun taken => taken.imp_right fun known => ?_⟩
  obtain ⟨id, hid⟩ := Option.isSome_iff_exists.mp known
  exact (h.scope n (Block.visible_of_lookup hid)).mp known

theorem Carries.retypes (h : Carries ls b) (typing : ∀ l ∈ ls, ∀ n, n ∈ l.names ∨ n ∈ l.used → ∃ t, (n, t) ∈ l.typings)
    (clash : b.Clashes (l.statement.uses c) n) : l.Retypes ls n := by
  obtain ⟨front, t, back, u, uses, prior, differ⟩ := clash
  obtain ⟨front', t', back', written, same, found⟩ := Statement.written_of_uses uses
  -- the types that are written are those that the context keeps
  have apart : ∀ u', u.same u' = true → u'.same t' = false := by
    intro u' same'
    rw [Bool.eq_false_iff, ne_eq, Ty.same_iff] at differ ⊢
    rw [Ty.same_iff] at same same'
    rwa [← same', ← same]
  rcases prior with prior | ⟨id, hid, htype⟩
  · obtain ⟨u', hu', same'⟩ := found u prior
    exact ⟨front', t', back', u', written, .inl hu', apart u' same'⟩
  · have scope := (h.scope n (Block.visible_of_lookup hid)).mp (Option.isSome_of_eq_some hid)
    obtain ⟨l', hl', u', hu'⟩ : ∃ l' ∈ ls, ∃ u', (n, u') ∈ l'.typings := by
      rcases scope with scope | scope
      · obtain ⟨l', hl', hn⟩ := List.mem_flatMap.mp scope
        exact ⟨l', hl', typing l' hl' n (.inl hn)⟩
      · obtain ⟨l', hl', hn⟩ := List.mem_flatMap.mp scope
        exact ⟨l', hl', typing l' hl' n (.inr hn)⟩
    have mem : (n, u') ∈ ls.flatMap typings := List.mem_flatMap.mpr ⟨l', hl', hu'⟩
    obtain ⟨id', v, hid', htype', same'⟩ := h.typed _ mem
    obtain rfl := Option.some.inj (hid.symm.trans hid')
    obtain rfl := Attr.type.inj (htype.symm.trans htype')
    exact ⟨front', t', back', u', written, .inr mem, apart u' same'⟩

end Line

/-- The tokens are the instructions one after the other, and each of these comes to its line. -/
structure Comprises (env : ParserEnv) (ts : List Token) (xs : List (LineSyntax × Line)) : Prop where
  words : ts.map Token.word = xs.flatMap (·.1.words)
  states : ∀ x ∈ xs, x.1.States env none x.2

/-- The instruction `x` breaks a rule about names with the name `n`, where the error is. The tokens `done` are the
instructions in front of it, and `used` is what is read of it: all, if it binds a name that is taken, or what stands
in front of its result types, if it uses a name at another type. -/
structure Offence (env : ParserEnv) (e : ParseError) (done used : List Token) (xs : List (LineSyntax × Line))
    (x : LineSyntax) (l : Line) (n : String) : Prop where
  front : Comprises env done xs
  broken : x.States env none l
  place : NameAt used n e.location
  rule : (e.cause = .redefinition n ∧ used.map Token.word = x.words ∧ l.Rebinds (xs.map (·.2)) n) ∨
    (Parser.ConflictAt e n ∧ used.map Token.word = x.opening ∧ l.Retypes (xs.map (·.2)) n)

theorem not_other_iff {cause : ParseCause} :
    ¬ cause.Other ↔ cause.category = .redefinedValue ∨ cause.category = .valueTypeMismatch := by
  cases cause <;> simp [ParseCause.Other, ParseCause.category]

theorem Parser.module_offends {env : ParserEnv} {s t : ParserState} {e : ParseError}
    (hk : ∀ x k, env.registry.kind? x = some k → k.Valid) (hs : s.block = .empty) (hv : VisibleTokens s.rest)
    (he : ¬ e.cause.Other) (h : Parser.module env s = (.error (.error e), t)) :
    ∃ done used rest xs x l n, s.rest = done ++ (used ++ rest) ∧ Offence env e done used xs x l n := by
  obtain ⟨n, u, hfirst, hlast⟩ := instructions_error (show instructions env s.rest.length s = _ from h)
  have start : Line.Carries [] s.block := hs ▸ Line.carries_empty
  obtain ⟨xs, hsplit, hx, hrun⟩ := firstInstructions_sound hk start.wellScoped hv hfirst
  have textual := textual_of_splits hv hsplit hx
  have carries : Line.Carries (xs.map (·.2)) u.block := start.runAll textual hrun
  obtain ⟨done, hdone, words⟩ := hsplit
  have visible : VisibleTokens u.rest := fun t ht => hv t (hdone ▸ List.mem_append_right _ ht)
  obtain ⟨used, rest, x, l, hused, states, m, place, breaks⟩ := instruction_breaks
    (show ∀ x k, KindFor env.registry none x k → k.Valid from hk) carries.wellScoped carries.types visible he hlast
  refine ⟨done, used, rest, xs, x, l, m, by rw [hdone, hused], ⟨words, hx⟩, states, place, ?_⟩
  rcases breaks with ⟨cause, all, rebinds⟩ | ⟨cause, opening, clash⟩
  · exact .inl ⟨cause, all, carries.rebinds rebinds⟩
  · refine .inr ⟨cause, opening, carries.retypes (fun l' hl' n hn => ?_) clash⟩
    obtain ⟨c, b, b', runs⟩ := hrun.runs hl'
    exact runs.exists_typing (textual l' hl') hn

namespace Reading

/-- **The names of a module.** The instructions of a text that is read keep to the rules about names, with the block
that is left. If reading it stops with an error about the name of a value, the instruction where the error is breaks
one of the rules, with respect to itself and the instructions in front of it. -/
theorem module_names (env : ParserEnv) (text : String) (c : TypeContext)
    (hk : ∀ x k, env.registry.kind? x = some k → k.Valid) :
    ((module env text c .empty).answer = .ok () →
      ∃ tokens xs, TokenStream.ofText text = .ok tokens ∧ Comprises env tokens.tokens xs ∧
        Line.Named (xs.map (·.2)) (module env text c .empty).block) ∧
    (∀ e, (module env text c .empty).answer = .error (.error e) →
      e.cause.category = .redefinedValue ∨ e.cause.category = .valueTypeMismatch →
      ∃ tokens done used rest xs x l n, TokenStream.ofText text = .ok tokens ∧
        tokens.tokens = done ++ (used ++ rest) ∧ Offence env e done used xs x l n) := by
  unfold module run
  cases htokens : TokenStream.ofText text with
  | error stray =>
    refine ⟨nofun, fun e h names => absurd ?_ (not_other_iff.mpr names)⟩
    cases h
    trivial
  | ok tokens =>
    have visible := visible_of_spelled (lexes_of_ofText htokens).2
    dsimp only
    cases hread : Parser.module env (.start tokens c .empty) with
    | mk answer t =>
      refine ⟨fun h => ?_, fun e h names => ?_⟩
      · obtain rfl : answer = .ok () := h
        obtain ⟨xs, hs, hend, states, hrun⟩ := Parser.instructions_sound (s := .start tokens c .empty) hk
          (Nat.le_refl _) Block.wellScoped_empty visible hread
        have textual := Parser.textual_of_splits visible hs states
        obtain ⟨used, hused, words⟩ := hs
        have hrest : t.rest = [] := eq_nil_of_nextKind htokens ⟨used, hused.symm⟩ hend
        have whole : tokens.tokens = used := by
          rw [hrest, List.append_nil] at hused
          exact hused
        refine ⟨tokens, xs, rfl, ⟨by rw [whole, words], states⟩, ?_⟩
        exact (Line.carries_empty.runAll textual hrun).toNamed
      · obtain rfl : answer = .error (.error e) := h
        obtain ⟨done, used, rest, xs, x, l, n, hrest, offence⟩ :=
          Parser.module_offends hk rfl visible (not_other_iff.mpr names) hread
        exact ⟨tokens, done, used, rest, xs, x, l, n, rfl, hrest, offence⟩

def failsAs {α : Type} (k : ParseCategory) : Except ParseFailure α → Bool
  | .error (.error e) => e.cause.category = k
  | _ => false

theorem exists_of_failsAs {α : Type} {k : ParseCategory} {x : Except ParseFailure α} (h : failsAs k x = true) :
    ∃ e, x = .error (.error e) ∧ e.cause.category = k := by
  unfold failsAs at h
  split at h
  · exact ⟨_, rfl, of_decide_eq_true h⟩
  · cases h

/-- A text that binds one name and has another one for an input, one that binds a name that it has used, and one that
uses a name at two types. -/
theorem module_names_threeTexts :
    (∃ tokens xs, Comprises ⟨.standard, false⟩ tokens xs ∧ Line.Named (xs.map (·.2))
      (module ⟨.standard, false⟩ "%q = quantum.alloc -> qubit quantum.cx %q, %c : qubit, qubit" .default
        .empty).block) ∧
    (∃ e done used xs x l n, (module ⟨.standard, false⟩ "quantum.x %q : qubit %q = quantum.alloc -> qubit" .default
      .empty).answer = .error (.error e) ∧ Offence ⟨.standard, false⟩ e done used xs x l n ∧
      l.Rebinds (xs.map (·.2)) n) ∧
    (∃ e done used xs x l n, (module ⟨.standard, false⟩ "quantum.x %q : qubit quantum.x %q : index" .default
      .empty).answer = .error (.error e) ∧ Offence ⟨.standard, false⟩ e done used xs x l n ∧
      l.Retypes (xs.map (·.2)) n) := by
  have valid : ∀ x k, Registry.standard.kind? x = some k → k.Valid := fun _ _ hk =>
    Registry.sound_standard.valid_of_kind? hk
  obtain ⟨named, -⟩ := module_names ⟨.standard, false⟩
    "%q = quantum.alloc -> qubit quantum.cx %q, %c : qubit, qubit" .default valid
  obtain ⟨-, bound⟩ := module_names ⟨.standard, false⟩ "quantum.x %q : qubit %q = quantum.alloc -> qubit" .default valid
  obtain ⟨-, typed⟩ := module_names ⟨.standard, false⟩ "quantum.x %q : qubit quantum.x %q : index" .default valid
  refine ⟨?_, ?_, ?_⟩
  · obtain ⟨tokens, xs, -, comprises, names⟩ := named (eq_ok_of_isOk (by decide +kernel))
    exact ⟨tokens.tokens, xs, comprises, names⟩
  · obtain ⟨e, he, category⟩ := exists_of_failsAs (k := .redefinedValue)
      (x := (module ⟨.standard, false⟩ "quantum.x %q : qubit %q = quantum.alloc -> qubit" .default .empty).answer)
      (by decide +kernel)
    obtain ⟨tokens, done, used, rest, xs, x, l, n, -, -, offence⟩ := bound e he (.inl category)
    refine ⟨e, done, used, xs, x, l, n, he, offence, ?_⟩
    rcases offence.rule with ⟨-, -, rebinds⟩ | ⟨⟨given, prior, cause⟩, -⟩
    · exact rebinds
    · rw [cause] at category
      cases category
  · obtain ⟨e, he, category⟩ := exists_of_failsAs (k := .valueTypeMismatch)
      (x := (module ⟨.standard, false⟩ "quantum.x %q : qubit quantum.x %q : index" .default .empty).answer)
      (by decide +kernel)
    obtain ⟨tokens, done, used, rest, xs, x, l, n, -, -, offence⟩ := typed e he (.inr category)
    refine ⟨e, done, used, xs, x, l, n, he, offence, ?_⟩
    rcases offence.rule with ⟨cause, -⟩ | ⟨-, -, retypes⟩
    · rw [cause] at category
      cases category
    · exact retypes

end Reading

end GateAsm
