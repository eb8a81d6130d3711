import GateAsm.Proofs.Discipline
import GateAsm.Proofs.Rollback

/-!
# Reports of a text

Reading a type, an instruction or a module either succeeds, with one warning for each pair of empty
parentheses behind a mnemonic, or stops with an error that is reported once and last
(`Reading.type_reports`, `Reading.instruction_reports`, `Reading.module_reports`). Only what is beyond a limit stops
it without a report (`Parser.Unreported`).
-/

namespace GateAsm

/-! ## Empty parentheses -/

def closing? : List Token → Option Token
  | o :: c :: _ => if o.kind = .openParen ∧ c.kind = .closeParen then some c else none
  | _ => none

/-- The words with empty parentheses behind them, each with the closing one. -/
def emptyAngles : List Token → List (Token × Token)
  | [] => []
  | w :: ts => (if w.kind = .word then (closing? ts).toList.map (w, ·) else []) ++ emptyAngles ts

def emptyAngleWarning (mnemonic : String) (closing : Token) : Diagnostic :=
  ⟨.warning, closing.location, s!"'{mnemonic}' has no rotation angle"⟩

/-- The warnings about empty parentheses in some tokens. -/
def angleWarnings (ts : List Token) : List Diagnostic := (emptyAngles ts).map fun x => emptyAngleWarning x.1.text x.2

section
variable {ts us : List Token}

theorem closing?_eq_none (h : Parser.nextKind ts ≠ .openParen) : closing? ts = none := by
  match ts with
  | [] => rfl
  | [_] => rfl
  | o :: c :: ts => exact if_neg fun hk => h hk.1

theorem emptyAngles_eq_nil (h : ∀ t ∈ ts.tail, t.kind ≠ .openParen) : emptyAngles ts = [] := by
  induction ts with
  | nil => rfl
  | cons w ts ih =>
    have closed : closing? ts = none := by
      refine closing?_eq_none ?_
      cases ts with
      | nil => exact nofun
      | cons o ts => exact h o List.mem_cons_self
    rw [emptyAngles, closed, ih fun t ht => h t (List.mem_of_mem_tail ht)]
    split <;> rfl

theorem emptyAngles_append_of_no_word (h : ∀ t ∈ ts, t.kind ≠ .word) : emptyAngles (ts ++ us) = emptyAngles us := by
  induction ts with
  | nil => rfl
  | cons t ts ih =>
    rw [List.cons_append, emptyAngles, if_neg (h t List.mem_cons_self), List.nil_append]
    exact ih fun x hx => h x (List.mem_cons_of_mem _ hx)

theorem closing?_append (h : Parser.nextKind us ≠ .openParen ∧ Parser.nextKind us ≠ .closeParen) :
    closing? (ts ++ us) = closing? ts := by
  match ts with
  | [] => exact closing?_eq_none h.1
  | [o] =>
    cases us with
    | nil => rfl
    | cons c us => exact if_neg fun hk => h.2 hk.2
  | _ :: _ :: _ => rfl

theorem emptyAngles_append (h : Parser.nextKind us ≠ .openParen ∧ Parser.nextKind us ≠ .closeParen) :
    emptyAngles (ts ++ us) = emptyAngles ts ++ emptyAngles us := by
  induction ts with
  | nil => rfl
  | cons t ts ih => rw [List.cons_append, emptyAngles, emptyAngles, closing?_append h, ih, List.append_assoc]

end

namespace Parser

variable {all : ParserInput} {env : ParserEnv} {kind : Kind} {s t : ParserState}

/-! ## Angles -/

def bodyWarnings (kind : Kind) (ts : List Token) : List Diagnostic :=
  if kind.rotation then (closing? ts).toList.map (emptyAngleWarning kind.name) else []

theorem ends_missingAngle (env : ParserEnv) (kind : Kind) (hs : s.In all) :
    Ends all (fun a t => a = .absent ∧ t.rest = s.rest ∧
      t.diagnostics = s.diagnostics ++ [emptyAngleWarning kind.name (s.ahead 0)]) s (missingAngle env kind s) := by
  unfold missingAngle
  refine (obeys_location s hs).bind fun l u h hu hl => ?_
  obtain ⟨rfl, rfl⟩ := yields_location.mp h
  split
  · refine ⟨⟨hs.rest, hs.endLocation, hs.wellScoped, hs.types⟩, ⟨_, fun d hd => ?_, rfl⟩, rfl, rfl, rfl⟩
    rw [List.mem_singleton.mp hd]
  · exact ends_fail hl.1

theorem ends_angleInside (env : ParserEnv) (kind : Kind) (hs : s.In all) :
    Ends all (fun a t => (∀ r ∈ a.references, r.In all) ∧
      (nextKind s.rest ≠ .closeParen ∧ t.diagnostics = s.diagnostics ∨
        t.rest = s.rest ∧ t.diagnostics = s.diagnostics ++ [emptyAngleWarning kind.name (s.ahead 0)]))
      s (angleInside env kind s) := by
  have number : Obeys all optionalFloat fun _ => True := (obeys_peek 0).bind fun _ ht => obeys_ite
    (fun _ => obeys_advance.bind fun _ _ => (obeys_finiteFloat ht).bind fun _ _ => obeys_pure trivial)
    fun _ => obeys_pure trivial
  unfold angleInside
  refine (number s hs).bind fun o u h hu ho => ?_
  rcases yields_optionalFloat.mp h with ⟨x, ts, d, hr, hk, -, rfl, rfl⟩ | ⟨-, rfl, rfl⟩
  · refine ⟨hu, .of_eq rfl, nofun, .inl ⟨?_, rfl⟩⟩
    rw [hr, nextKind_cons]
    rcases hk with hk | hk
    · rw [hk]; exact nofun
    · rw [hk]; exact nofun
  · refine (obeys_optionalOperand u hu).bind fun o v h hv' ho => ?_
    rcases yields_optionalOperand.mp h with ⟨x, ts, hr, hk, rfl, rfl⟩ | ⟨-, rfl, rfl⟩
    · refine ⟨hv', .of_eq rfl, fun r hr' => ?_, .inl ⟨?_, rfl⟩⟩
      · exact ho.1 r (congrArg some (List.mem_singleton.mp hr').symm)
      · rw [hr, nextKind_cons, hk]; exact nofun
    · refine (ends_missingAngle env kind hv').mono fun a t ha => ?_
      obtain ⟨rfl, hrest, hd⟩ := ha
      exact ⟨nofun, .inr ⟨hrest, hd⟩⟩

/-- A rotation warns exactly about empty parentheses behind its mnemonic. -/
theorem ends_optionalAngle (env : ParserEnv) (kind : Kind) (hs : s.In all) :
    Ends all (fun a t => (∀ r ∈ a.references, r.In all) ∧ t.diagnostics = s.diagnostics ++ bodyWarnings kind s.rest)
      s (optionalAngle env kind s) := by
  unfold optionalAngle bodyWarnings
  by_cases hr : kind.rotation = true
  · rw [if_pos hr, if_pos hr]
    unfold angle
    refine (obeys_optional .openParen s hs).bind fun o u h hu ho => ?_
    rcases (yields_optional (by decide)).mp h with ⟨x, ts, hx, hk, rfl, rfl⟩ | ⟨hn, rfl, rfl⟩
    · refine (ends_angleInside env kind hu).bind fun a v h hv' ha => ?_
      refine (obeys_expect .closeParen v hv').bind fun c w h hw hc => ?_
      obtain ⟨rest, hrest, hck, rfl⟩ := (yields_expect (by decide)).mp h
      obtain ⟨references, ⟨hn, hd⟩ | ⟨same, hd⟩⟩ := ha
      · refine ⟨hw, .of_eq rfl, references, ?_⟩
        have none : closing? (x :: ts) = none := by
          cases ts with
          | nil => rfl
          | cons y ts => exact if_neg fun h => hn h.2
        rw [hx, none]
        exact hd.trans (List.append_nil _).symm
      · refine ⟨hw, .of_eq rfl, references, ?_⟩
        have first : ts = c :: rest := same.symm.trans hrest
        have found : closing? (x :: ts) = some c := by rw [first]; exact if_pos ⟨hk, hck⟩
        have ahead : (s.facing ts).ahead 0 = c := ahead_of_rest (show (s.facing ts).rest = c :: rest from first)
        rw [hx, found]
        rw [ahead] at hd
        exact hd
    · refine ⟨hu, .of_eq rfl, nofun, ?_⟩
      rw [closing?_eq_none hn]
      exact (List.append_nil _).symm
  · rw [if_neg hr, if_neg hr]
    exact ⟨hs, .of_eq rfl, nofun, (List.append_nil _).symm⟩

/-! ## Bodies -/

/-- The record has all its operands, and types for its results that can be shown. -/
def Complete (st : OperationState) : Prop :=
  (∃ ids : List Nat, st.operands = ids.map some) ∧ ∀ a ∈ st.resultTypes, ∃ t : Ty, a = .type t ∧ t.unshown? = none

theorem complete_mk (name : String) (ids : List Nat) (tags : List (String × Attr)) {results : List Ty}
    (h : ∀ t ∈ results, t.unshown? = none) : Complete ⟨name, ids.map some, tags, results.map .type⟩ := by
  refine ⟨⟨ids, rfl⟩, fun a ha => ?_⟩
  obtain ⟨t, ht, rfl⟩ := List.mem_map.mp ha
  exact ⟨t, rfl, h t ht⟩

theorem ends_operandGroup (env : ParserEnv) (kind : Kind) (hs : s.In all) :
    Ends all (fun st t => Complete st ∧ t.diagnostics = s.diagnostics ++ bodyWarnings kind s.rest)
      s (operandGroup env kind s) := by
  unfold operandGroup
  refine (ends_optionalAngle env kind hs).bind fun found u _ hu hfound => ?_
  refine Ends.mono (P := fun st t => Complete st ∧ t.diagnostics = u.diagnostics) ?_ fun st t h =>
    ⟨h.1, h.2.trans hfound.2⟩
  refine Obeys.bind obeys_location (fun _ hl => (obeys_operandList kind).bind fun given hgiven =>
    (obeys_require hl).bind fun _ _ => (obeys_setTags fun _ => structuralAttrs kind found given).bind fun _ _ =>
    (obeys_boundOperands env kind ?_).bind fun values _ => (obeys_arrowTypes env.registry).bind fun results shown =>
    obeys_get.bind fun s _ => obeys_pure (complete_mk kind.name values s.tags shown)) u hu
  intro x hx
  rcases List.mem_append.mp hx with hx | hx
  · obtain ⟨r, hr, rfl⟩ := List.mem_map.mp hx
    exact hfound.1 r hr
  · obtain ⟨o, ho, hx⟩ := List.mem_flatMap.mp hx
    exact hgiven o ho x hx

theorem length_listed {wss : List (List Word)} (h : ∀ ws ∈ wss, ws ≠ []) : wss.length ≤ (listed wss).length := by
  cases wss with
  | nil => exact Nat.le_refl _
  | cons ws wss =>
    have first := List.length_pos_of_ne_nil (h ws List.mem_cons_self)
    have others : wss.length ≤ (wss.flatMap (Word.mark .comma :: ·)).length := by
      clear h
      induction wss with
      | nil => exact Nat.le_refl _
      | cons v wss ih =>
        simp only [List.flatMap_cons, List.length_append, List.length_cons]
        omega
    rw [listed_cons, List.length_append, List.length_cons]
    omega

theorem length_arguments {os : List OperandSyntax} {fs : List (Filler String)}
    (h : OperandSyntax.fillers? os = some fs) :
    fs.length + (fs.flatMap Filler.references).length ≤ (CallSyntax.argumentWords os).length := by
  induction os generalizing fs with
  | nil => cases h; exact Nat.le_refl _
  | cons o os ih =>
    obtain ⟨f, gs, hf, hgs, rfl⟩ := OperandSyntax.fillers?_cons_iff.mp h
    have references : f.references.length ≤ o.words.length := by
      obtain ⟨hp, -, -⟩ := OperandSyntax.filler?_eq_some_iff.mp hf
      have parts : f.references.length ≤ f.parts.length := List.length_filterMap_le _ _
      rw [PartSyntax.length_parts? hp] at parts
      refine Nat.le_trans parts ?_
      cases hps : o.parts with
      | none => exact Nat.zero_le _
      | some ps =>
        have := @length_listed (ps.map fun p => [p.word]) (by simp)
        rw [List.length_map] at this
        simp only [OperandSyntax.words, hps, OperandSyntax.accessorWords, Option.getD_some, List.length_cons,
          List.length_append]
        omega
    have := ih hgs
    simp only [CallSyntax.argumentWords, List.map_cons, List.flatMap_cons, List.length_append,
      List.length_cons] at this ⊢
    omega

theorem obeys_checkSegments {sizes : List Nat} (h : ∀ n ∈ sizes, n ≤ all.tokens.length) :
    Obeys all (checkSegments sizes) fun _ => True := by
  unfold checkSegments
  intro s hs
  split
  · exact .quiet hs rfl trivial
  · next hbig =>
    obtain ⟨n, hn, hlarge⟩ : ∃ n ∈ sizes, segmentLimit ≤ n := by simpa using hbig
    exact ⟨Nat.le_trans hlarge (h n hn), .of_eq rfl⟩

theorem obeys_callForm (env : ParserEnv) (kind : Kind) :
    Obeys all (callForm env kind) Complete := by
  unfold callForm
  refine obeys_symbol.bind fun callee _ => (obeys_expect _).bind fun _ _ => (obeys_integer _).bind fun count _ => ?_
  intro s hs
  rw [get_bind_apply]
  refine (obeys_arguments s.rest.length s hs).bind fun args u h hu hargs => ?_
  obtain ⟨os, fs, rest, hsplit, hfs, hstand, rfl⟩ := arguments_sound (Nat.le_refl _) h
  have total : args.length + (args.flatMap (·.references)).length ≤ all.tokens.length := by
    have written := length_arguments hfs
    have names := congrArg List.length hstand.references_eq
    rw [List.length_map] at names
    have := hsplit.length_eq
    have := hs.rest.length_le
    rw [hstand.length_eq, names]
    omega
  refine Ends.mono (P := fun st t => Complete st ∧ t.diagnostics = (s.facing rest).diagnostics) ?_ fun st t h =>
    ⟨h.1, h.2.trans hargs.2⟩
  refine Obeys.bind (obeys_expect _) (fun _ _ => (obeys_checkSegments ?_).bind fun _ _ =>
    (obeys_setTags fun _ => callAttrs callee count args).bind fun _ _ =>
    (obeys_boundOperands env kind ?_).bind fun values _ => (obeys_expect _).bind fun _ _ =>
    (obeys_typeExpr env.registry).bind fun result shown => obeys_get.bind fun s _ =>
    obeys_pure (complete_mk kind.name values s.tags (List.forall_mem_singleton.mpr shown))) _ hu
  · intro n hn
    simp only [List.mem_cons, List.not_mem_nil, or_false] at hn
    omega
  · intro x hx
    rcases List.mem_append.mp hx with hx | hx
    · obtain ⟨a, ha, rfl⟩ := List.mem_map.mp hx
      exact (hargs.1 a ha).1
    · obtain ⟨r, hr, rfl⟩ := List.mem_map.mp hx
      obtain ⟨a, ha, hr⟩ := List.mem_flatMap.mp hr
      exact (hargs.1 a ha).2 r hr

end Parser

/-! ## Parentheses in an instruction -/

def NoParen (ws : List Word) : Prop := ∀ w ∈ ws, w.kind ≠ .openParen

theorem NoParen.append {ws vs : List Word} (h : NoParen ws) (h' : NoParen vs) : NoParen (ws ++ vs) := by
  intro w hw
  rcases List.mem_append.mp hw with hw | hw
  · exact h w hw
  · exact h' w hw

theorem NoParen.cons {w : Word} {ws : List Word} (hw : w.kind ≠ .openParen) (h : NoParen ws) : NoParen (w :: ws) :=
  List.forall_mem_cons.mpr ⟨hw, h⟩

theorem noParen_nil : NoParen [] := nofun

theorem noParen_listed {wss : List (List Word)} (h : ∀ ws ∈ wss, NoParen ws) : NoParen (listed wss) :=
  forall_listed nofun h

mutual

theorem LiteralSyntax.noParen_words : (w : LiteralSyntax) → NoParen w.words
  | .int _ | .float _ | .str _ | .symbol _ | .bool _ => .cons nofun noParen_nil
  | .list items => .cons nofun ((noParen_listed (noParen_itemWords items)).append (.cons nofun noParen_nil))

theorem LiteralSyntax.noParen_itemWords : (ws : List LiteralSyntax) → ∀ vs ∈ itemWords ws, NoParen vs
  | [] => nofun
  | w :: ws => List.forall_mem_cons.mpr ⟨noParen_words w, noParen_itemWords ws⟩

end

theorem noParen_braced (tags : Option (List (String × LiteralSyntax))) : NoParen (bracedWords tags) := by
  cases tags with
  | none => exact noParen_nil
  | some es =>
    refine .cons nofun ((noParen_listed fun ws hws => ?_).append (.cons nofun noParen_nil))
    obtain ⟨e, -, rfl⟩ := List.mem_map.mp hws
    exact .cons nofun (.cons nofun e.2.noParen_words)

theorem TypeSyntax.noParen_words (w : TypeSyntax) : NoParen w.words := by
  have closing : NoParen [.mark .more] := .cons nofun noParen_nil
  cases w with
  | plain k => exact .cons nofun noParen_nil
  | register k size =>
    cases size with
    | none => exact .cons nofun (.cons nofun closing)
    | some d => exact .cons nofun (.cons nofun (.cons nofun closing))
  | controlled k count base =>
    cases count with
    | none => exact .cons nofun (.cons nofun (.cons nofun closing))
    | some d => exact .cons nofun (.cons nofun (.cons nofun (.cons nofun (.cons nofun closing))))

theorem TypeSyntax.noParen_marked {k : TokenKind} (hk : k ≠ .openParen) (ws : List TypeSyntax) :
    NoParen (marked k ws) := by
  cases ws with
  | nil => exact noParen_nil
  | cons w ws =>
    refine .cons hk (noParen_listed fun vs hvs => ?_)
    obtain ⟨v, -, rfl⟩ := List.mem_map.mp hvs
    exact v.noParen_words

theorem OperandSyntax.noParen_words (o : OperandSyntax) : NoParen o.words := by
  refine .cons nofun ?_
  cases o.parts with
  | none => exact noParen_nil
  | some ps =>
    refine .cons nofun ((noParen_listed fun vs hvs => ?_).append (.cons nofun noParen_nil))
    obtain ⟨p, -, rfl⟩ := List.mem_map.mp hvs
    cases p with
    | int d => exact .cons nofun noParen_nil
    | reference n => exact .cons nofun noParen_nil

theorem GroupSyntax.words_eq (g : GroupSyntax) : ∃ ws, g.words = g.angle.words ++ ws ∧ NoParen ws ∧
    ws = operandWords g.operands ++ (bracedWords g.tags ++
      (TypeSyntax.marked .colon g.types ++ TypeSyntax.marked .arrow g.results)) := by
  refine ⟨_, rfl, .append (noParen_listed fun vs hvs => ?_) (.append (noParen_braced _)
    (.append (TypeSyntax.noParen_marked (by decide) _) (TypeSyntax.noParen_marked (by decide) _))), rfl⟩
  obtain ⟨o, -, rfl⟩ := List.mem_map.mp hvs
  exact o.noParen_words

theorem CallSyntax.noParen_words (g : CallSyntax) : ∃ n ws, g.words = ⟨.symbolName, n⟩ :: .mark .openParen :: ws ∧
    NoParen ws := by
  refine ⟨g.callee, _, rfl, .append (.cons nofun (.append (fun w hw => ?_) (.cons nofun noParen_nil)))
    (.append (noParen_braced _)
      (.append (TypeSyntax.noParen_marked (by decide) _) (.cons nofun g.result.noParen_words)))⟩
  obtain ⟨vs, hvs, hw⟩ := List.mem_flatMap.mp hw
  obtain ⟨o, -, rfl⟩ := List.mem_map.mp hvs
  rcases List.mem_cons.mp hw with rfl | hw
  · exact nofun
  · exact o.noParen_words w hw

section
variable {used : List Token} {ws : List Word}

theorem NoParen.tokens (h : NoParen ws) (hw : used.map Token.word = ws) : ∀ t ∈ used, t.kind ≠ .openParen := by
  intro t ht
  have := h t.word (hw ▸ List.mem_map_of_mem ht)
  rwa [Token.kind_word] at this

theorem NoParen.closing? (h : NoParen ws) (hw : used.map Token.word = ws) : closing? used = none := by
  refine closing?_eq_none ?_
  cases used with
  | nil => exact nofun
  | cons t used => exact h.tokens hw t List.mem_cons_self

end

namespace Parser

variable {all : ParserInput} {env : ParserEnv} {kind : Kind} {s t : ParserState}

theorem rotation_of_callForm (hk : kind.Valid) (h : kind.callForm = true) : kind.rotation = false := by
  unfold Kind.Valid Kind.fault? at hk
  split at hk
  · cases hk
  · split at hk
    · cases hk
    · next hn =>
      rw [h, Bool.true_and] at hn
      cases hr : kind.rotation with
      | false => rfl
      | true => simp [hr] at hn

/-- Behind a mnemonic, exactly empty parentheses directly behind it are warned about. -/
theorem ends_operationBody (env : ParserEnv) (hk : kind.Valid) (hs : s.In all) :
    Ends all (fun st t => Complete st ∧ t.diagnostics = s.diagnostics ++ bodyWarnings kind s.rest)
      s (operationBody env kind s) := by
  unfold operationBody
  by_cases hcall : kind.callForm = true
  · rw [if_pos hcall]
    have none : bodyWarnings kind s.rest = [] := if_neg (by simp [rotation_of_callForm hk hcall])
    rw [none, List.append_nil]
    exact obeys_callForm env kind s hs
  · rw [if_neg hcall]
    exact ends_operandGroup env kind hs

theorem AngleSyntax.words_eq {w : AngleSyntax} (h : w ≠ .absent) :
    ∃ v vs, w.words = .mark .openParen :: v :: vs ∧ NoParen (v :: vs) := by
  have closing : NoParen [.mark .closeParen] := .cons nofun noParen_nil
  cases w with
  | absent => exact absurd rfl h
  | empty => exact ⟨_, _, rfl, closing⟩
  | float d => exact ⟨_, _, rfl, .cons nofun closing⟩
  | int d => exact ⟨_, _, rfl, .cons nofun closing⟩
  | reference n => exact ⟨_, _, rfl, .cons nofun closing⟩

theorem body_parentheses {st : OperationState} {used : List Token} (hk : kind.Valid) (hb : s.block.WellScoped)
    (hv : VisibleTokens s.rest) (h : Yields (operationBody env kind) s st t) (hused : s.rest = used ++ t.rest) :
    emptyAngles used = [] ∧
      bodyWarnings kind s.rest = (closing? used).toList.map (emptyAngleWarning kind.name) := by
  obtain ⟨g, m, ⟨used', hused', hw⟩, hopen, hstates, -⟩ := operationBody_sound hk hb hv h
  obtain rfl : used = used' := List.append_cancel_right (hused.symm.trans hused')
  cases g with
  | call g =>
    -- a call starts with its callee and has no empty parentheses
    obtain ⟨hcall, -⟩ := hstates
    obtain ⟨n, ws, hws, noParen⟩ := g.noParen_words
    obtain ⟨a, used, rfl, ha, hw⟩ := List.map_eq_cons_iff.mp (hw.trans hws)
    obtain ⟨b, used, rfl, hb, hw⟩ := List.map_eq_cons_iff.mp hw
    have hkind : a.kind = .symbolName := ((Token.word_eq_iff rfl).mp ha).1
    have first : closing? (a :: b :: used) = none := closing?_eq_none (by rw [nextKind_cons, hkind]; exact nofun)
    rw [bodyWarnings, rotation_of_callForm hk hcall, first]
    refine ⟨?_, rfl⟩
    rw [emptyAngles, if_neg (by rw [hkind]; exact nofun), List.nil_append]
    exact emptyAngles_eq_nil (noParen.tokens hw)
  | generic g =>
    obtain ⟨hcall, hg⟩ := hstates
    obtain ⟨ws, hws, noParen, hothers⟩ := g.words_eq
    by_cases ha : g.angle = .absent
    · have hw : used.map Token.word = ws := by rw [hw, show (BodySyntax.generic g).words = _ from hws, ha]; rfl
      rw [noParen.closing? hw]
      refine ⟨emptyAngles_eq_nil fun t ht => noParen.tokens hw t (List.mem_of_mem_tail ht), ?_⟩
      unfold bodyWarnings
      by_cases hr : kind.rotation = true
      -- an angle that is absent could not go on there, so that no parenthesis follows
      · have closed := (GroupSyntax.closed_iff.mpr hopen).angle hr ha
        rw [← hothers, ← Splits.nextKind ⟨used, hused, hw⟩] at closed
        rw [if_pos hr, closing?_eq_none closed]
      · rw [if_neg hr]
        rfl
    · have hr : kind.rotation = true := by
        by_contra hr
        exact ha (hg.rotation (by simpa using hr))
      obtain ⟨v, vs, hangle, inside⟩ := AngleSyntax.words_eq ha
      have hw : used.map Token.word = .mark .openParen :: v :: (vs ++ ws) := by
        rw [hw, show (BodySyntax.generic g).words = _ from hws, hangle]
        rfl
      obtain ⟨o, used, rfl, -, hw⟩ := List.map_eq_cons_iff.mp hw
      refine ⟨emptyAngles_eq_nil (NoParen.tokens (inside.append noParen) hw), ?_⟩
      obtain ⟨c, used, rfl, -, -⟩ := List.map_eq_cons_iff.mp hw
      rw [bodyWarnings, if_pos hr, hused]
      rfl

/-! ## Instructions -/

/-- The tokens between two states were read, with one warning for each pair of empty parentheses in them; they
start with a name, or there are none. -/
def Reported (s t : ParserState) : Prop :=
  ∃ used, s.rest = used ++ t.rest ∧ nextKind used ∈ [.word, .valueName, .endOfText] ∧
    t.diagnostics = s.diagnostics ++ angleWarnings used

theorem Reported.trans {u : ParserState} (h : Reported s t) (h' : Reported t u) : Reported s u := by
  obtain ⟨as, has, hfirst, hs⟩ := h
  obtain ⟨bs, hbs, hnext, ht⟩ := h'
  -- parentheses do not run across two instructions, since the second starts with a name
  have apart : nextKind bs ≠ .openParen ∧ nextKind bs ≠ .closeParen := by
    constructor
    · intro hk; rw [hk] at hnext; exact absurd hnext (by decide)
    · intro hk; rw [hk] at hnext; exact absurd hnext (by decide)
  refine ⟨as ++ bs, by rw [has, hbs, List.append_assoc], ?_, ?_⟩
  · cases as with
    | nil => exact hnext
    | cons a as => exact hfirst
  · rw [ht, hs, angleWarnings, angleWarnings, angleWarnings, emptyAngles_append apart, List.map_append,
      List.append_assoc]

theorem obeys_moreResultNames (fuel : Nat) :
    Obeys all (moreResultNames fuel) fun ts => ∀ t ∈ ts, TokenOf all .valueName t := by
  induction fuel with
  | zero => exact obeys_pure nofun
  | succ fuel ih =>
    exact (obeys_optional _).bind fun _ _ => obeys_ite (fun _ => obeys_pure nofun) fun _ =>
      (obeys_expectAs _ _).bind fun t ht => ih.bind fun ts hts => obeys_pure (List.forall_mem_cons.mpr ⟨ht, hts⟩)

theorem obeys_resultNames : Obeys all resultNames fun ts => ∀ t ∈ ts, TokenOf all .valueName t := by
  refine (obeys_optional _).bind fun o ho => ?_
  cases o with
  | none => exact obeys_pure nofun
  | some t =>
    exact obeys_get.bind fun s _ => (obeys_moreResultNames s.rest.length).bind fun ts hts =>
      (obeys_expect _).bind fun _ _ => obeys_pure (List.forall_mem_cons.mpr ⟨ho t rfl, hts⟩)

theorem obeys_mnemonic (env : ParserEnv) (expected : Option Kind) :
    Obeys all (mnemonic env expected) fun _ => True := by
  refine (obeys_expectAs _ _).bind fun t ht => ?_
  cases expected with
  | some kind => exact obeys_ite (fun _ => obeys_pure trivial) fun _ => obeys_failAt ht.1
  | none =>
    dsimp only
    split
    · exact obeys_pure trivial
    · exact obeys_failAt ht.1

theorem obeys_checkResultCount (defined : Nat) {names : List Token} (h : ∀ t ∈ names, TokenOf all .valueName t) :
    Obeys all (checkResultCount defined names) fun _ => True := by
  cases names with
  | nil => exact obeys_pure trivial
  | cons t ts => exact (obeys_require ⟨t, (h t List.mem_cons_self).1, rfl⟩).mono fun _ _ => trivial

theorem obeys_checkResultNames (seen : List String) {names : List Token} (h : ∀ t ∈ names, TokenOf all .valueName t) :
    Obeys all (checkResultNames seen names) fun _ => True := by
  induction names generalizing seen with
  | nil => exact obeys_pure trivial
  | cons t ts ih =>
    obtain ⟨ht, hts⟩ := List.forall_mem_cons.mp h
    exact obeys_get.bind fun _ _ => (obeys_require ⟨t, ht.1, rfl⟩).bind fun _ _ => ih _ hts

theorem Complete.createOperation {b : Block} {st : OperationState} {names : List Token} (hst : Complete st)
    (hcount : names = [] ∨ names.length = st.resultTypes.length) (hdistinct : (names.map (·.text)).Nodup)
    (hfree : ∀ t ∈ names, Block.Visible t.text ∧ b.lookup t.text = none) :
    ∃ n b', b.createOperation st (resultLabels names) = (.ok n, b') := by
  obtain ⟨⟨ids, hids⟩, -⟩ := hst
  cases names with
  | nil =>
    have anonymous : (st.resultTypes.map fun _ => (none : Option Label)).filterMap id = [] := by simp
    obtain ⟨b', hb⟩ := Block.createOperation_texts (b := b) hids (List.length_map _)
      (by simp) (anonymous ▸ List.nodup_nil)
    exact ⟨_, b', hb⟩
  | cons t ts =>
    have length := hcount.resolve_left (List.cons_ne_nil _ _)
    have distinct : (((t :: ts).map fun x => some (Label.text x.text)).filterMap id).Nodup := by
      have written : ((t :: ts).map fun x => some (Label.text x.text)).filterMap id =
          ((t :: ts).map (·.text)).map Label.text := by simp [List.filterMap_map]
      rw [written]
      exact hdistinct.map fun _ _ h => Label.text.inj h
    have texts : ∀ l, some l ∈ (t :: ts).map (fun x => some (Label.text x.text)) →
        ∃ n, l = .text n ∧ Block.Visible n ∧ b.lookup n = none := by
      intro l hl
      obtain ⟨x, hx, hl⟩ := List.mem_map.mp hl
      cases hl
      exact ⟨x.text, rfl, hfree x hx⟩
    obtain ⟨b', hb⟩ := Block.createOperation_texts hids ((List.length_map _).trans length) texts distinct
    exact ⟨_, b', hb⟩

theorem ends_completion {st : OperationState} {names : List Token} (hst : Complete st)
    (hnames : ∀ t ∈ names, TokenOf all .valueName t) (hs : s.In all) :
    Ends all (fun _ t => t.rest = s.rest ∧ t.diagnostics = s.diagnostics) s ((do
      checkResultCount st.resultTypes.length names
      checkResultNames [] names
      let op ← changeBlock fun b => b.createOperation st (resultLabels names)
      record (.parsed st.opcode.display st.operands.length)
      return op : Parser Nat) s) := by
  refine (obeys_checkResultCount _ hnames s hs).bind fun _ u h hu _ => ?_
  obtain ⟨hcount, rfl⟩ := yields_checkResultCount.mp h
  refine (obeys_checkResultNames [] hnames u hu).bind fun _ v h hv' _ => ?_
  obtain ⟨hdistinct, hfree, rfl⟩ := yields_checkResultNames.mp h
  have free : ∀ t ∈ names, Block.Visible t.text ∧ v.block.lookup t.text = none := fun t ht =>
    ⟨((hnames t ht).reference).visible, (hfree _ (List.mem_map_of_mem ht)).2⟩
  obtain ⟨n, b, created⟩ := hst.createOperation hcount hdistinct free
  obtain ⟨-, operands, hcreates⟩ := Block.createOperation_ok created
  have same : Yields (changeBlock fun b => b.createOperation st (resultLabels names)) v n (v.withBlock b) :=
    yields_changeBlock.mpr ⟨congrArg Prod.fst created, congrArg (v.withBlock ·) (congrArg Prod.snd created).symm⟩
  rw [bind_apply, same]
  have shown : ∀ a ∈ st.resultTypes, ∃ t : Ty, a = .type t ∧ ∀ m, t.unshown? = some m → all.block.Conceals m := by
    intro a ha
    obtain ⟨t, rfl, ht⟩ := hst.2 a ha
    exact ⟨t, rfl, Ty.conceals_of_shown ht⟩
  exact ⟨⟨hv'.rest, hv'.endLocation, hcreates.wellScoped hv'.wellScoped,
    hv'.types.createOperation hv'.wellScoped shown created⟩, .of_eq rfl, rfl, rfl⟩

theorem nextKind_nameWords (ns : List String) :
    LineSyntax.nameWords ns = [] ∨ ∃ n ws, LineSyntax.nameWords ns = ⟨.valueName, n⟩ :: ws := by
  cases ns with
  | nil => exact .inl rfl
  | cons n ns => exact .inr ⟨n, _, rfl⟩

theorem kind_nameWords (ns : List String) : ∀ w ∈ LineSyntax.nameWords ns, w.kind ≠ .word := by
  intro w hw
  cases ns with
  | nil => cases hw
  | cons n ns =>
    change w ∈ listed ((n :: ns).map fun n => [(⟨.valueName, n⟩ : Word)]) ++ [.mark .equal] at hw
    rw [listed_names] at hw
    rcases List.mem_append.mp hw with hw | hw
    · rcases List.mem_cons.mp hw with rfl | hw
      · exact nofun
      · obtain ⟨m, -, hw⟩ := List.mem_flatMap.mp hw
        simp only [List.mem_cons, List.not_mem_nil, or_false] at hw
        rcases hw with rfl | rfl
        · exact nofun
        · exact nofun
    · rw [List.mem_singleton.mp hw]
      exact nofun

def SoundKinds (env : ParserEnv) (expected : Option Kind) : Prop :=
  ∀ x k, KindFor env.registry expected x k → k.Valid ∧ k.name = x

theorem ends_instructionBody {expected : Option Kind} (hk : SoundKinds env expected)
    (hs : s.In all) : Ends all (fun _ t => Reported s t) s (instructionBody env expected s) := by
  unfold instructionBody
  refine (obeys_resultNames s hs).bind fun names u h hu hnames => ?_
  obtain ⟨r₁, ⟨front, hfront, hwords⟩, rfl⟩ := resultNames_sound h
  refine (obeys_mnemonic env expected _ hu).bind fun kind v h hv' hkind => ?_
  obtain ⟨x, r₂, hx, hword, hfor, rfl⟩ := yields_mnemonic.mp h
  obtain ⟨valid, named⟩ := hk _ _ hfor
  refine (ends_operationBody env valid hv').bind fun st w h hw hst => ?_
  have visible : VisibleTokens r₂ := all.visible.sublist hv'.rest.sublist
  obtain ⟨-, -, ⟨used, hused, -⟩, -⟩ := operationBody_sound valid hv'.wellScoped visible h
  obtain ⟨inner, warned⟩ := body_parentheses valid hv'.wellScoped visible h hused
  refine (ends_completion hst.1 hnames.1 hw).mono fun _ t same => ?_
  -- result names come before the mnemonic, and no angle belongs to them
  have noWord : ∀ t ∈ front, t.kind ≠ .word := by
    intro t ht
    have := kind_nameWords _ t.word (hwords ▸ List.mem_map_of_mem ht)
    rwa [Token.kind_word] at this
  refine ⟨front ++ x :: used, ?_, ?_, ?_⟩
  · rw [hfront, show r₁ = x :: r₂ from hx, show r₂ = used ++ w.rest from hused, same.1, List.append_assoc]
    rfl
  · rcases nextKind_nameWords (names.map (·.text)) with none | ⟨n, ws, some⟩
    · rw [none, List.map_eq_nil_iff] at hwords
      rw [hwords, List.nil_append, nextKind_cons, hword]
      decide
    · rw [some] at hwords
      obtain ⟨a, front, rfl, ha, -⟩ := List.map_eq_cons_iff.mp hwords
      rw [List.cons_append, nextKind_cons, ((Token.word_eq_iff rfl).mp ha).1]
      decide
  · have angles : emptyAngles (front ++ x :: used) = (closing? used).toList.map (x, ·) := by
      rw [emptyAngles_append_of_no_word noWord, emptyAngles, inner, if_pos hword, List.append_nil]
    rw [same.2, hst.2, angleWarnings, angles, warned, named, List.map_map]
    rfl

theorem ends_instruction {expected : Option Kind} (hk : SoundKinds env expected)
    (hs : s.In all) : Ends all (fun _ t => Reported s t) s (instruction env expected s) := by
  have body := ends_instructionBody hk
    (show (s.withTags []).In all from ⟨hs.rest, hs.endLocation, hs.wellScoped, hs.types⟩)
  cases h : instructionBody env expected (s.withTags []) with
  | mk answer u =>
    rw [h] at body
    cases answer with
    | ok n =>
      obtain ⟨inside, warned, reported⟩ := body
      rw [show instruction env expected s = _ from yields_instruction.mpr ⟨u, h, rfl⟩]
      exact ⟨⟨inside.rest, inside.endLocation, inside.wellScoped, inside.types⟩, warned, reported⟩
    | error e =>
      cases e with
      | error e =>
        obtain ⟨place, v, hwarned, hd⟩ := body
        obtain ⟨t, ht, -, same⟩ := instruction_of_body_error h
        rw [ht]
        exact ⟨place, v, hwarned, same.trans hd⟩
      | _ =>
        unfold instruction
        rw [get_bind_apply, tryCatch_apply, withFreshTags_apply, h]
        exact body

theorem Reported.refl (s : ParserState) : Reported s s :=
  ⟨[], rfl, by decide, (List.append_nil _).symm⟩

theorem ends_instructions (hk : SoundKinds env none) (fuel : Nat) (hs : s.In all) :
    Ends all (fun _ t => Reported s t) s (instructions env fuel s) := by
  induction fuel generalizing s with
  | zero => exact ⟨hs, .of_eq rfl, .refl s⟩
  | succ fuel ih =>
    rw [instructions_succ]
    split
    · exact ⟨hs, .of_eq rfl, .refl s⟩
    · exact (ends_instruction hk hs).bind fun _ u _ hu reported =>
        (ih hu).mono fun _ t others => reported.trans others

theorem nextKind_of_expectEnd {x : Unit} (h : Yields expectEnd s x t) : nextKind s.rest = .endOfText := by
  obtain ⟨y, u, h, -⟩ := yields_bind.mp h
  unfold expect expectAs at h
  rw [yields_peek_bind] at h
  split at h
  · next hk => exact (kind_ahead_zero s).symm.trans hk
  · exact (not_yields_fail h).elim

end Parser

/-! ## Texts -/

namespace Reading

/-- The position is that of a token of the text, its end included, or of the character that starts no token. -/
def PlaceOf (text : String) (l : Location) : Prop :=
  (∃ tokens, TokenStream.ofText text = .ok tokens ∧ tokens.Places l) ∨
    ∃ stray, TokenStream.ofText text = .error stray ∧ stray.location = l

/-- What may be reported beside a failure: one error, which is the failure and comes last, or only warnings if the
text or the block is beyond a limit. -/
def Refused (text : String) (b : Block) (reports : List Diagnostic) : ParseFailure → Prop
  | .error e => PlaceOf text e.location ∧
      ∃ ws, (∀ d ∈ ws, d.severity = .warning) ∧ reports = ws ++ [⟨.error, e.location, e.message⟩]
  | f => (∃ tokens, TokenStream.ofText text = .ok tokens ∧ Parser.Unreported tokens b f) ∧
      ∀ d ∈ reports, d.severity = .warning

/-- What a text reports over a block: the warnings about its tokens if it has an answer, and the failure otherwise. -/
structure Reports {α : Type} (r : Reading α) (text : String) (b : Block) (warnings : List Token → List Diagnostic) :
    Prop where
  answered : ∀ a, r.answer = .ok a →
    ∃ tokens, TokenStream.ofText text = .ok tokens ∧ r.diagnostics = warnings tokens.tokens
  refused : ∀ f, r.answer = .error f → Refused text b r.diagnostics f

section
variable {α : Type} {p : Parser α} {text : String} {tokens : TokenStream} {c : TypeContext} {b : Block}

def inputOf (h : TokenStream.ofText text = .ok tokens) (b : Block) : ParserInput :=
  { tokens with block := b, spelled := (lexes_of_ofText h).2 }

theorem reports_of_ends {warnings : List Token → List Diagnostic}
    (h : ∀ tokens, (htext : TokenStream.ofText text = .ok tokens) →
      Parser.Ends (inputOf htext b) (fun _ t => t.diagnostics = warnings tokens.tokens) (.start tokens c b)
        (p (.start tokens c b))) :
    (run p text c b).Reports text b warnings := by
  unfold run
  cases htext : TokenStream.ofText text with
  | error stray =>
    refine ⟨nofun, fun f hf => ?_⟩
    cases hf
    exact ⟨.inr ⟨stray, htext, rfl⟩, [], nofun, rfl⟩
  | ok tokens =>
    have outcome := h tokens htext
    dsimp only
    cases hp : p (.start tokens c b) with
    | mk answer t =>
      rw [hp] at outcome
      cases answer with
      | ok a => exact ⟨fun _ _ => ⟨tokens, htext, outcome.2.2⟩, nofun⟩
      | error f =>
        refine ⟨nofun, fun f' hf => ?_⟩
        cases hf
        cases f with
        | error e =>
          -- up to the failure only warnings were reported
          obtain ⟨place, u, ⟨ws, warned, hu⟩, ht⟩ := outcome
          refine ⟨.inl ⟨tokens, htext, place⟩, ws, warned, ?_⟩
          exact ht.trans (congrArg (· ++ _) hu)
        | _ =>
          obtain ⟨beyond, ws, warned, ht⟩ := outcome
          have reports : t.diagnostics = ws := ht
          exact ⟨⟨tokens, htext, beyond⟩, fun d hd => warned d (reports ▸ hd)⟩

theorem start_in (h : TokenStream.ofText text = .ok tokens) (hb : b.WellScoped) (ht : b.HoldsTypes) :
    (ParserState.start tokens c b).In (inputOf h b) := by
  refine ⟨List.suffix_refl _, rfl, hb, fun e he => ?_⟩
  obtain ⟨t, htype⟩ := ht e he
  exact ⟨t, htype, fun m hm => ⟨e, he, t, htype, hm⟩⟩

theorem kind_ne_endOfText {t : Token} (h : t.word.Spelled) : t.kind ≠ .endOfText := by
  intro hend
  rw [Word.Spelled, (Token.kind_word t).trans hend] at h
  exact h.elim

theorem eq_nil_of_nextKind (h : TokenStream.ofText text = .ok tokens) {rest : List Token} (hs : rest <:+ tokens.tokens)
    (hend : Parser.nextKind rest = .endOfText) : rest = [] := by
  cases rest with
  | nil => rfl
  | cons t rest =>
    exact absurd hend (kind_ne_endOfText
      ((lexes_of_ofText h).2 t.word (List.mem_map_of_mem (hs.subset List.mem_cons_self))))

theorem angleWarnings_of_reported {s t : ParserState} (h : TokenStream.ofText text = .ok tokens)
    (hs : s.rest = tokens.tokens) (hd : s.diagnostics = []) (ht : t.In (inputOf h b)) (hr : Parser.Reported s t)
    (hend : Parser.nextKind t.rest = .endOfText) : t.diagnostics = angleWarnings tokens.tokens := by
  obtain ⟨used, hused, -, hwarned⟩ := hr
  rw [eq_nil_of_nextKind h ht.rest hend, List.append_nil] at hused
  rw [hwarned, hd, ← hs, hused]
  rfl

theorem type_reports (registry : Registry) (text : String) (c : TypeContext) :
    (type registry text c).Reports text .empty fun _ => [] := by
  refine reports_of_ends fun tokens htokens => ?_
  have typed : Block.empty.HoldsTypes := nofun
  have whole := (Parser.obeys_typeExpr registry).bind fun t _ => Parser.obeys_expectEnd.bind fun _ _ =>
    show Parser.Obeys (inputOf htokens .empty) (pure t) (fun _ => True) from Parser.obeys_pure trivial
  exact (whole _ (start_in htokens Block.wellScoped_empty typed)).mono fun _ _ h => h.2

theorem instruction_reports {env : ParserEnv} {expected : Option Kind} (hk : Parser.SoundKinds env expected)
    (hb : b.WellScoped) (ht : b.HoldsTypes) : (instruction env expected text c b).Reports text b angleWarnings := by
  refine reports_of_ends fun tokens htokens => ?_
  refine (Parser.ends_instruction hk (start_in htokens hb ht)).bind fun op u _ hu reported => ?_
  refine (Parser.obeys_expectEnd u hu).bind fun _ v h hv same => ?_
  have warned := angleWarnings_of_reported htokens rfl rfl hu reported (Parser.nextKind_of_expectEnd h)
  exact ⟨hv, .of_eq rfl, same.2.trans warned⟩

theorem module_reports {env : ParserEnv} (hk : Parser.SoundKinds env none) (hb : b.WellScoped) (ht : b.HoldsTypes) :
    (module env text c b).Reports text b angleWarnings := by
  refine reports_of_ends fun tokens htokens => ?_
  have visible := (inputOf htokens b).visible
  have valid : ∀ x k, env.registry.kind? x = some k → k.Valid := fun x k h => (hk x k h).1
  show Parser.Ends (inputOf htokens b) _ _ (Parser.instructions env tokens.tokens.length (.start tokens c b))
  refine (Parser.ends_instructions hk _ (start_in htokens hb ht)).yields fun _ t h hin reported => ?_
  obtain ⟨-, -, hend, -⟩ := Parser.instructions_sound (s := .start tokens c b) valid (Nat.le_refl _) hb visible h
  exact angleWarnings_of_reported htokens rfl rfl hin reported hend

end

end Reading

theorem Parser.soundKinds {env : ParserEnv} {expected : Option Kind}
    (hk : ∀ e ∈ env.registry.kinds, e.2.Valid ∧ e.2.name = e.1)
    (he : ∀ k, expected = some k → k.Valid) : SoundKinds env expected := by
  intro x k h
  cases expected with
  | none => exact hk _ (Registry.mem_of_kind? h)
  | some k' =>
    obtain ⟨rfl, rfl⟩ := h
    exact ⟨he k rfl, rfl⟩

/-! ## Failures without a report -/

def callText (k : Kind) (callee : String) (n : Int) (fs : List (Filler String)) : String :=
  k.name ++ " " ++ "@" ++ callee ++ "(" ++ toString n ++ operandsText ", " fs ++ ")"

section
variable {k : Kind} {callee : String} {n : Int} {fs : List (Filler String)}

theorem emits_callText (hname : IsName k.name) (hcallee : IsName callee) (hfs : ∀ f ∈ fs, f.Named) :
    Emits (callText k callee n fs).toList (⟨.word, k.name⟩ :: ⟨.symbolName, "@" ++ callee⟩ :: .mark .openParen ::
      ⟨.int, toString n⟩ :: (CallSyntax.argumentWords (fs.map Filler.form) ++ [.mark .closeParen])) := by
  have closed : Follows [ ')' ] [.mark .closeParen] := Emits.nil.behind_mark (c := ')') rfl
  have args := (emits_int n).append ((follows_arguments hfs).append closed)
  have := (emits_name hname).append
    (((emits_symbol hcallee).append (args.behind_mark (c := '(') rfl)).behind_space (c := ' ') rfl)
  simpa [callText] using this

/-- A call with more operands than sizes of segments can count stops there, and nothing is reported. -/
theorem Reading.instruction_callText {env : ParserEnv} (c : TypeContext) (b : Block) (hk : k.callForm = true)
    (hreg : env.registry.kind? k.name = some k) (hname : IsName k.name) (hcallee : IsName callee) (hn : FewDigits n)
    (hfs : ∀ f ∈ fs, f.Named ∧ LegalParts f.parts) (hlarge : ¬ (Content.mk (.call callee n) fs).Small) :
    (instruction env none (callText k callee n fs) c b).answer = .error .segmentTooLarge ∧
      (instruction env none (callText k callee n fs) c b).diagnostics = [] := by
  obtain ⟨tokens, htokens, hwords⟩ :=
    ofText_of_lexes (emits_callText (n := n) hname hcallee fun f hf => (hfs f hf).1).lexes
  obtain ⟨x, rest, hx, hword, hargs⟩ := List.map_eq_cons_iff.mp hwords
  let s : ParserState := (ParserState.start tokens c b).withTags []
  have first : s.rest = x :: rest := hx
  obtain ⟨hkind, htext⟩ := (Token.word_eq_iff rfl).mp hword
  have unnamed : Parser.Yields Parser.resultNames s [] s := by
    have nothing : Splits (LineSyntax.nameWords []) s.rest s.rest := Splits.nil_iff.mpr rfl
    obtain ⟨ts, h, hts⟩ := Parser.resultNames_complete nothing (by rw [first]; exact hkind)
    rwa [List.map_eq_nil_iff.mp hts] at h
  have known : Parser.Yields (Parser.mnemonic env none) s k (s.facing rest) :=
    Parser.yields_mnemonic.mpr ⟨x, rest, first, hkind, by rw [htext]; exact hreg, rfl⟩
  have body : Parser.operationBody env k (s.facing rest) = (.error .segmentTooLarge, (s.facing rest).facing []) := by
    rw [Parser.operationBody, if_pos hk]
    exact Parser.callForm_tooLarge ⟨rest, (List.append_nil _).symm, hargs⟩ (intLiteral?_toString hn)
      (Filler.fillers?_form fun f hf => (hfs f hf).2) hlarge
  have stops : Parser.instructionBody env none s = (.error .segmentTooLarge, (s.facing rest).facing []) := by
    unfold Parser.instructionBody
    rw [unnamed.bind_eq, known.bind_eq, Parser.bind_apply, body]
    rfl
  have whole : Parser.instruction env none (.start tokens c b) =
      (.error .segmentTooLarge, ((s.facing rest).facing []).withTags []) := by
    unfold Parser.instruction
    rw [Parser.get_bind_apply, Parser.tryCatch_apply, Parser.withFreshTags_apply, stops]
    rfl
  unfold instruction run
  rw [htokens]
  dsimp only
  rw [Parser.bind_apply, whole]
  exact ⟨rfl, rfl⟩

end

def oversized : Block := Block.empty.withInput "%r" (.register (some (10 ^ maxIntegerDigits)))

theorem typed_oversized : ∀ e ∈ oversized.scope, ∃ t : Ty, oversized.typeOf e.2 = .type t ∧ t.WellFormed := by
  intro e he
  obtain rfl := List.mem_singleton.mp he
  exact ⟨.register (some (10 ^ maxIntegerDigits)), rfl, by decide +kernel⟩

def repeatedCall (n : Nat) : String := callText Kind.circuitCall "f" 1 (List.replicate n ⟨"%q", []⟩)

theorem Reading.instruction_repeatedCall {n : Nat} (hn : segmentLimit ≤ n) :
    (instruction ⟨.standard, false⟩ none (repeatedCall n) .default .empty).answer = .error .segmentTooLarge ∧
      (instruction ⟨.standard, false⟩ none (repeatedCall n) .default .empty).diagnostics = [] := by
  have operands : ∀ f ∈ List.replicate n (⟨"%q", []⟩ : Filler String), f.Named ∧ LegalParts f.parts := by
    intro f hf
    rw [List.eq_of_mem_replicate hf]
    exact ⟨⟨⟨'q', [], rfl, List.forall_mem_singleton.mpr rfl⟩, nofun⟩, ⟨by decide, nofun⟩⟩
  refine instruction_callText .default .empty rfl (by decide +kernel) (by decide +kernel) (by decide +kernel)
    (by decide +kernel) operands fun small => ?_
  have count : (List.replicate n (⟨"%q", []⟩ : Filler String)).length < segmentLimit := small.1
  rw [List.length_replicate] at count
  exact Nat.not_lt.mpr hn count

def isUnshown {α : Type} : Except ParseFailure α → Bool
  | .error (.type (.mismatch .badValue)) => true
  | _ => false

theorem eq_of_isUnshown {α : Type} {x : Except ParseFailure α} (h : isUnshown x = true) :
    x = .error (.type (.mismatch .badValue)) := by
  unfold isUnshown at h
  split at h
  · rfl
  · cases h

/-! ## What is reported -/

/-- **A text is read, or stops with the one error that it reports.** Reading a type, an instruction or a module
over a block of values with types never stops for a fault of the block. If it stops with an error, that error is
reported, at a place of the text, and behind warnings only. Else an integer literal is beyond the digits that are
read, the text beyond the operands that are counted, or a value in the block has a type that no message can show.
If it has an answer, nothing but the empty parentheses behind its mnemonics is reported, each with one warning. -/
theorem Reading.reports :
    (∀ (registry : Registry) (text : String) (c : TypeContext),
      (type registry text c).Reports text .empty fun _ => []) ∧
    (∀ (env : ParserEnv) (expected : Option Kind) (text : String) (c : TypeContext) (b : Block),
      (∀ e ∈ env.registry.kinds, e.2.Valid ∧ e.2.name = e.1) → (∀ k, expected = some k → k.Valid) →
      b.WellScoped → b.HoldsTypes → (instruction env expected text c b).Reports text b angleWarnings) ∧
    (∀ (env : ParserEnv) (text : String) (c : TypeContext) (b : Block),
      (∀ e ∈ env.registry.kinds, e.2.Valid ∧ e.2.name = e.1) → b.WellScoped → b.HoldsTypes →
      (module env text c b).Reports text b angleWarnings) := by
  refine ⟨type_reports, ?_, ?_⟩
  · intro env expected text c b hk he hb ht
    exact instruction_reports (Parser.soundKinds hk he) hb ht
  · intro env text c b hk hb ht
    exact module_reports (Parser.soundKinds hk nofun) hb ht

def angleless : String := "quantum.rx() %q : qubit -> qubit"

/-- It is warned about where angles may be missing, and elsewhere an error; a type has nothing to be warned about. -/
theorem Reading.reports_angleless :
    (∃ tokens, TokenStream.ofText angleless = .ok tokens ∧
      (module ⟨.standard, true⟩ angleless .default .empty).diagnostics = angleWarnings tokens.tokens) ∧
    (∃ e, (instruction ⟨.standard, false⟩ none angleless .default .empty).answer = .error (.error e) ∧
      Refused angleless .empty (instruction ⟨.standard, false⟩ none angleless .default .empty).diagnostics (.error e)) ∧
    (type .standard "register<4>" .default).diagnostics = [] := by
  have kinds : ∀ e ∈ Registry.standard.kinds, e.2.Valid ∧ e.2.name = e.1 := by decide
  have typed : Block.empty.HoldsTypes := nofun
  obtain ⟨types, instructions, modules⟩ := Reading.reports
  refine ⟨?_, ?_, ?_⟩
  · have answered : (module ⟨.standard, true⟩ angleless .default .empty).answer = .ok () :=
      eq_ok_of_isOk (by decide +kernel)
    exact (modules ⟨.standard, true⟩ angleless .default .empty kinds Block.wellScoped_empty typed).answered () answered
  · have fails : isParseError (instruction ⟨.standard, false⟩ none angleless .default .empty).answer = true := by
      decide +kernel
    obtain ⟨e, he⟩ := exists_of_isParseError fails
    exact ⟨e, he, (instructions ⟨.standard, false⟩ none angleless .default .empty kinds nofun Block.wellScoped_empty
      typed).refused _ he⟩
  · have answered : (type .standard "register<4>" .default).answer.isOk = true := by decide +kernel
    cases h : (type .standard "register<4>" .default).answer with
    | error f => rw [h] at answered; cases answered
    | ok t =>
      obtain ⟨-, -, none⟩ := (types .standard "register<4>" .default).answered t h
      exact none

/-- Two texts that stop without an answer and without a report: one uses a register as a qubit that no message can
show, and the other is a call with too many arguments. -/
theorem Reading.unreported :
    (oversized.WellScoped ∧ (∀ e ∈ oversized.scope, ∃ t : Ty, oversized.typeOf e.2 = .type t ∧ t.WellFormed) ∧
      (instruction ⟨.standard, false⟩ none "quantum.h %r : qubit" .default oversized).answer =
        .error (.type (.mismatch .badValue)) ∧
      (instruction ⟨.standard, false⟩ none "quantum.h %r : qubit" .default oversized).diagnostics = []) ∧
    (instruction ⟨.standard, false⟩ none (repeatedCall segmentLimit) .default .empty).answer = .error .segmentTooLarge ∧
    (instruction ⟨.standard, false⟩ none (repeatedCall segmentLimit) .default .empty).diagnostics = [] := by
  refine ⟨?_, instruction_repeatedCall (Nat.le_refl _)⟩
  exact ⟨Block.wellScoped_withInput Block.wellScoped_empty, typed_oversized,
    eq_of_isUnshown (by decide +kernel), by decide +kernel⟩

end GateAsm
