import GateAsm.Proofs.Diagnosed

/-!
# What an instruction reports when it is read

Whatever the block is, an instruction that is read reports nothing but the empty parentheses behind its mnemonic:
every other part of it is silent (`Parser.Silent`), and so is all of it where an angle has to be given
(`Parser.diagnostics_of_operationBody`).
-/

namespace GateAsm

namespace ParserState

variable (s : ParserState) (t : Ty) (ts : List Ty)

@[simp]
theorem diagnostics_interning : (s.interning t).diagnostics = s.diagnostics := by
  simp only [interning]; split <;> rfl

@[simp]
theorem diagnostics_keeping : (s.keeping t).diagnostics = s.diagnostics := by
  unfold keeping; split <;> simp

@[simp]
theorem diagnostics_keepingAll : (s.keepingAll ts).diagnostics = s.diagnostics := by
  induction ts generalizing s with
  | nil => rfl
  | cons t ts ih => rw [keepingAll_cons, ih, diagnostics_keeping]

end ParserState

namespace Parser

def Silent {α : Type} (p : Parser α) : Prop := ∀ s a t, Yields p s a t → t.diagnostics = s.diagnostics

variable {α β : Type} {env : ParserEnv} {kind : Kind} {s t : ParserState}

/-! ## Control -/

theorem silent_pure (a : α) : Silent (pure a : Parser α) := by
  intro s b t h
  obtain ⟨-, rfl⟩ := yields_pure.mp h
  rfl

theorem silent_bind {p : Parser α} {f : α → Parser β} (hp : Silent p) (hf : ∀ a, Silent (f a)) : Silent (p >>= f) := by
  intro s b t h
  obtain ⟨a, u, first, second⟩ := yields_bind.mp h
  exact (hf a u b t second).trans (hp s a u first)

theorem silent_ite {c : Prop} [Decidable c] {p q : Parser α} (hp : Silent p) (hq : Silent q) :
    Silent (if c then p else q) := by
  split
  · exact hp
  · exact hq

theorem silent_fail (cause : ParseCause) (l : Location) : Silent (fail cause l : Parser α) :=
  fun _ _ _ h => (not_yields_fail h).elim

theorem silent_throw (e : ParseFailure) : Silent (throw e : Parser α) := fun _ _ _ h => (not_yields_throw h).elim

theorem silent_get : Silent get := by
  intro s a t h
  obtain ⟨-, rfl⟩ := yields_get.mp h
  rfl

theorem silent_modify {f : ParserState → ParserState} (hf : ∀ s, (f s).diagnostics = s.diagnostics) :
    Silent (modify f : Parser PUnit) := by
  intro s a t h
  obtain rfl := yields_modify.mp h
  exact hf s

theorem silent_of_facing {p : Parser α} (h : ∀ s a t, Yields p s a t → ∃ rest, t = s.facing rest) : Silent p := by
  intro s a t hp
  obtain ⟨rest, rfl⟩ := h s a t hp
  rfl

/-! ## Tokens -/

theorem silent_location : Silent location := by
  intro s a t h
  obtain ⟨-, rfl⟩ := yields_location.mp h
  rfl

theorem silent_require (ok : Bool) (cause : ParseCause) (l : Location) : Silent (require ok cause l) :=
  silent_ite (silent_pure ()) (silent_fail cause l)

theorem silent_optional {k : TokenKind} (hk : k ≠ .endOfText) : Silent (optional k) := by
  intro s a t h
  rcases (yields_optional hk).mp h with ⟨x, ts, -, -, -, rfl⟩ | ⟨-, -, rfl⟩
  · rfl
  · rfl

theorem silent_expect {k : TokenKind} (hk : k ≠ .endOfText) : Silent (expect k) := by
  refine silent_of_facing fun s a t h => ?_
  obtain ⟨ts, -, -, rfl⟩ := (yields_expect hk).mp h
  exact ⟨ts, rfl⟩

theorem silent_symbol : Silent symbol := by
  refine silent_of_facing fun s a t h => ?_
  obtain ⟨-, ts, -, -, -, rfl⟩ := yields_symbol.mp h
  exact ⟨ts, rfl⟩

theorem silent_integer (wanted : String) : Silent (integer wanted) := by
  refine silent_of_facing fun s a t h => ?_
  obtain ⟨-, ts, -, -, -, rfl⟩ := yields_integer.mp h
  exact ⟨ts, rfl⟩

theorem silent_operand : Silent operand := by
  refine silent_of_facing fun s a t h => ?_
  obtain ⟨-, ts, -, -, -, rfl⟩ := yields_operand.mp h
  exact ⟨ts, rfl⟩

/-! ## Types, tags and references -/

theorem silent_intern (x : Ty) : Silent (intern x) := by
  intro s a t h
  obtain ⟨-, rfl⟩ := yields_intern.mp h
  exact s.diagnostics_interning x

theorem silent_typeExpr (registry : Registry) : Silent (typeExpr registry) := by
  intro s a t h
  obtain ⟨-, ty, rest, -, -, -, rfl⟩ := yields_typeExpr.mp h
  exact s.diagnostics_keeping ty

theorem silent_arrowTypes (registry : Registry) : Silent (arrowTypes registry) := by
  intro s a t h
  obtain ⟨-, tys, rest, -, -, -, -, rfl⟩ := yields_arrowTypes.mp h
  exact s.diagnostics_keepingAll tys

theorem silent_countedTypes (registry : Registry) (expected : Nat) : Silent (countedTypes registry expected) := by
  intro s a t h
  obtain ⟨h, -⟩ := yields_countedTypes.mp h
  obtain ⟨-, tys, rest, -, -, -, -, rfl⟩ := yields_colonTypes.mp h
  exact s.diagnostics_keepingAll tys

theorem silent_optionalTags (reserved : List String) : Silent (optionalTags reserved) := by
  intro s a t h
  obtain ⟨-, tags, rest, -, -, -, -, rfl⟩ := yields_optionalTags.mp h
  rfl

theorem silent_orStop (x : Readback α) : Silent (orStop x) := by
  intro s a t h
  obtain ⟨-, rfl⟩ := yields_orStop.mp h
  rfl

theorem silent_bindReference (registry : Registry) (r : Reference) (ty : Ty) : Silent (Parser.bind registry r ty) := by
  refine silent_bind silent_get fun u => ?_
  dsimp only
  split
  · intro s a t h
    obtain ⟨-, rfl⟩ := yields_changeBlock.mp h
    rfl
  · exact silent_bind (silent_orStop _) fun ok => silent_ite (silent_pure _)
      (silent_bind (silent_orStop _) fun _ => silent_bind (silent_orStop _) fun _ => silent_fail _ _)

theorem silent_bindAll (registry : Registry) (rs : List Reference) (tys : List Ty) :
    Silent (bindAll registry rs tys) := by
  induction rs generalizing tys with
  | nil =>
    cases tys with
    | nil => exact silent_pure []
    | cons ty tys => exact silent_throw _
  | cons r rs ih =>
    cases tys with
    | nil => exact silent_throw _
    | cons ty tys =>
      exact silent_bind (silent_bindReference registry r ty) fun id => silent_bind (ih tys) fun ids => silent_pure _

theorem silent_boundOperands (env : ParserEnv) (kind : Kind) (operands : List (Reference × Bool)) :
    Silent (boundOperands env kind operands) :=
  silent_bind (silent_optionalTags _) fun _ => silent_bind (silent_countedTypes _ _) fun _ =>
    silent_bind (silent_intern _) fun _ => silent_bindAll _ _ _

/-! ## Operands and arguments -/

theorem silent_operandList (kind : Kind) : Silent (operandList kind) := by
  refine silent_of_facing fun s a t h => ?_
  obtain ⟨-, -, rest, -, -, -, -, -, rfl⟩ := operandList_sound h
  exact ⟨rest, rfl⟩

theorem silent_accessorList : Silent accessorList := by
  refine silent_of_facing fun s a t h => ?_
  obtain ⟨-, -, rest, -, -, -, -, -, rfl⟩ := accessorList_sound h
  exact ⟨rest, rfl⟩

theorem silent_arguments (fuel : Nat) : Silent (arguments fuel) := by
  induction fuel with
  | zero => exact silent_pure []
  | succ fuel ih =>
    exact silent_bind (silent_optional (by decide)) fun _ => silent_ite (silent_pure [])
      (silent_bind silent_operand fun r => silent_bind silent_accessorList fun x =>
        silent_bind ih fun _ => silent_pure _)

theorem silent_checkSegments (sizes : List Nat) : Silent (checkSegments sizes) :=
  silent_ite (silent_pure ()) (silent_throw _)

theorem silent_callForm (env : ParserEnv) (kind : Kind) : Silent (callForm env kind) :=
  silent_bind silent_symbol fun _ => silent_bind (silent_expect (by decide)) fun _ =>
    silent_bind (silent_integer _) fun _ => silent_bind silent_get fun s =>
    silent_bind (silent_arguments s.rest.length) fun _ =>
    silent_bind (silent_expect (by decide)) fun _ => silent_bind (silent_checkSegments _) fun _ =>
    silent_bind (silent_modify fun _ => rfl) fun _ => silent_bind (silent_boundOperands env kind _) fun _ =>
    silent_bind (silent_expect (by decide)) fun _ => silent_bind (silent_typeExpr _) fun _ =>
    silent_bind silent_get fun _ => silent_pure _

/-! ## Angles -/

theorem diagnostics_of_angleInside {a : Angle} (h : Yields (angleInside env kind) s a t) :
    nextKind s.rest ≠ .closeParen ∧ t.diagnostics = s.diagnostics ∨
      env.allowMissingAngle = true ∧ t.rest = s.rest ∧
        t.diagnostics = s.diagnostics ++ [emptyAngleWarning kind.name (s.ahead 0)] := by
  obtain ⟨o, u, ho, hmore⟩ := yields_bind.mp h
  rcases yields_optionalFloat.mp ho with ⟨x, ts, d, hr, hk, -, rfl, rfl⟩ | ⟨-, rfl, rfl⟩
  · obtain ⟨-, rfl⟩ := yields_pure.mp hmore
    refine .inl ⟨?_, rfl⟩
    rw [hr, nextKind_cons]
    rcases hk with hk | hk
    · rw [hk]; exact nofun
    · rw [hk]; exact nofun
  · obtain ⟨o, v, ho, hmissing⟩ := yields_bind.mp hmore
    rcases yields_optionalOperand.mp ho with ⟨x, ts, hr, hk, rfl, rfl⟩ | ⟨-, rfl, rfl⟩
    · obtain ⟨-, rfl⟩ := yields_pure.mp hmissing
      refine .inl ⟨?_, rfl⟩
      rw [hr, nextKind_cons, hk]; exact nofun
    · simp only [missingAngle, yields_location_bind, yields_ite, warn, record, yields_modify_bind, not_yields_fail,
        and_false, or_false, yields_pure] at hmissing
      obtain ⟨allowed, -, rfl⟩ := hmissing
      exact .inr ⟨allowed, rfl, rfl⟩

theorem diagnostics_of_optionalAngle {a : Angle} (h : Yields (optionalAngle env kind) s a t) :
    t.diagnostics = s.diagnostics ++ bodyWarnings kind s.rest ∧
      (env.allowMissingAngle = false → bodyWarnings kind s.rest = []) := by
  have quiet : bodyWarnings kind s.rest = [] → t.diagnostics = s.diagnostics →
      t.diagnostics = s.diagnostics ++ bodyWarnings kind s.rest ∧
        (env.allowMissingAngle = false → bodyWarnings kind s.rest = []) := by
    intro none same
    rw [none, List.append_nil]
    exact ⟨same, fun _ => rfl⟩
  rcases yields_ite.mp h with ⟨hr, h⟩ | ⟨hr, h⟩
  · rcases (yields_unlessMark rfl (by decide)).mp h with ⟨us, ho, h⟩ | ⟨hn, h⟩
    · obtain ⟨a, u, ha, h⟩ := yields_bind.mp h
      obtain ⟨c, v, hc, h⟩ := yields_bind.mp h
      obtain ⟨rest, hrest, hck, rfl⟩ := (yields_expect (by decide)).mp hc
      obtain ⟨-, rfl⟩ := yields_pure.mp h
      obtain ⟨o, hso, hok⟩ := (splits_mark_iff rfl).mp ho
      rcases diagnostics_of_angleInside ha with ⟨hn, same⟩ | ⟨allowed, hmoved, warned⟩
      · refine quiet ?_ same
        have none : closing? (o :: us) = none := by
          cases us with
          | nil => rfl
          | cons y us => exact if_neg fun h => hn h.2
        rw [bodyWarnings, if_pos hr, hso, none]
        rfl
      · have first : us = c :: rest := hmoved.symm.trans hrest
        have found : closing? (o :: us) = some c := by rw [first]; exact if_pos ⟨hok, hck⟩
        have ahead : (s.facing us).ahead 0 = c := ahead_of_rest (show (s.facing us).rest = c :: rest from first)
        rw [bodyWarnings, if_pos hr, hso, found]
        rw [ahead] at warned
        exact ⟨warned, fun forbidden => absurd (forbidden.symm.trans allowed) Bool.false_ne_true⟩
    · obtain ⟨-, rfl⟩ := yields_pure.mp h
      refine quiet ?_ rfl
      rw [bodyWarnings, if_pos hr, closing?_eq_none hn]
      rfl
  · obtain ⟨-, rfl⟩ := yields_pure.mp h
    exact quiet (if_neg hr) rfl

/-! ## Instructions -/

theorem diagnostics_of_operationBody {st : OperationState} (hk : kind.Valid)
    (h : Yields (operationBody env kind) s st t) :
    t.diagnostics = s.diagnostics ++ bodyWarnings kind s.rest ∧
      (env.allowMissingAngle = false → bodyWarnings kind s.rest = []) := by
  rcases yields_ite.mp h with ⟨hcall, h⟩ | ⟨-, h⟩
  · have none : bodyWarnings kind s.rest = [] := if_neg (by simp [rotation_of_callForm hk hcall])
    rw [none, List.append_nil]
    exact ⟨silent_callForm env kind s st t h, fun _ => rfl⟩
  · obtain ⟨found, u, hfound, h⟩ := yields_bind.mp h
    obtain ⟨warned, strict⟩ := diagnostics_of_optionalAngle hfound
    refine ⟨?_, strict⟩
    rw [← warned]
    refine (?_ : Silent _) u st t h
    exact silent_bind silent_location fun _ => silent_bind (silent_operandList kind) fun _ =>
      silent_bind (silent_require _ _ _) fun _ => silent_bind (silent_modify fun _ => rfl) fun _ =>
      silent_bind (silent_boundOperands env kind _) fun _ => silent_bind (silent_arrowTypes _) fun _ =>
      silent_bind silent_get fun _ => silent_pure _

/-- **Reports of an instruction that is read.** The parentheses in front of what stands behind its mnemonic are warned
about, if they are empty; then the mnemonic is one of a rotation, and its angle may be missing. There are no other empty
parentheses, and no other reports. -/
theorem diagnostics_of_instruction {expected : Option Kind} {n : Nat}
    (hk : ∀ x k, KindFor env.registry expected x k → k.Valid) (hb : s.block.WellScoped) (hv : VisibleTokens s.rest)
    (h : Yields (instruction env expected) s n t) :
    ∃ front w body k, s.rest = front ++ w :: (body ++ t.rest) ∧ (∀ x ∈ front, x.kind ≠ .word) ∧ w.kind = .word ∧
      KindFor env.registry expected w.text k ∧ emptyAngles body = [] ∧
      t.diagnostics = s.diagnostics ++ (closing? body).toList.map (emptyAngleWarning k.name) ∧
      ((closing? body).isSome = true → k.rotation = true ∧ env.allowMissingAngle = true) := by
  obtain ⟨u, hu, rfl⟩ := yields_instruction.mp h
  obtain ⟨ts, u1, hnames, hkinded⟩ := yields_bind.mp hu
  obtain ⟨r1, hfront, rfl⟩ := resultNames_sound hnames
  obtain ⟨k, u2, hmnemonic, hrest⟩ := yields_bind.mp hkinded
  obtain ⟨w, r2, hr, hw, hkind, rfl⟩ := yields_mnemonic.mp hmnemonic
  obtain ⟨st, u3, hbody, hcounted⟩ := yields_bind.mp hrest
  -- what is left checks the names of the results, appends the operation and records it
  obtain ⟨⟨⟩, u4, hcount, hchecked⟩ := yields_bind.mp hcounted
  obtain ⟨-, rfl⟩ := yields_checkResultCount.mp hcount
  obtain ⟨⟨⟩, u5, hcheck, hcreated⟩ := yields_bind.mp hchecked
  obtain ⟨-, -, rfl⟩ := yields_checkResultNames.mp hcheck
  obtain ⟨op, u6, hcreate, hrecorded⟩ := yields_bind.mp hcreated
  obtain ⟨-, rfl⟩ := yields_changeBlock.mp hcreate
  obtain ⟨⟨⟩, u7, hrecord, hend⟩ := yields_bind.mp hrecorded
  obtain rfl := yields_modify.mp hrecord
  obtain ⟨-, rfl⟩ := yields_pure.mp hend
  have behind : r1 = w :: r2 := hr
  have visible : VisibleTokens r2 := (hv.sublist hfront.sublist).sublist (behind ▸ List.sublist_cons_self w r2)
  have valid := hk _ _ hkind
  obtain ⟨-, -, ⟨body, hsplit, -⟩, -⟩ := operationBody_sound (s := ((s.withTags []).facing r1).facing r2) valid hb
    visible hbody
  obtain ⟨inner, same⟩ := body_parentheses (s := ((s.withTags []).facing r1).facing r2) valid hb visible hbody hsplit
  obtain ⟨warned, strict⟩ := diagnostics_of_operationBody valid hbody
  obtain ⟨front, hused, hwords⟩ := hfront
  have tokens : s.rest = front ++ w :: (body ++ u5.rest) := by
    have below : r2 = body ++ u5.rest := hsplit
    rw [← below, ← behind]
    exact hused
  refine ⟨front, w, body, k, tokens, fun x hx => ?_, hw, hkind, inner, ?_, fun closed => ?_⟩
  · have := kind_nameWords _ x.word (hwords ▸ List.mem_map_of_mem hx)
    rwa [Token.kind_word] at this
  · rw [← same]
    exact warned
  · obtain ⟨c, hc⟩ := Option.isSome_iff_exists.mp closed
    rw [hc] at same
    have some : bodyWarnings k r2 ≠ [] := by rw [show bodyWarnings k r2 = _ from same]; exact List.cons_ne_nil _ _
    constructor
    · by_contra hrot
      exact some (if_neg hrot)
    · by_contra hallow
      exact some (strict (Bool.eq_false_iff.mpr hallow))

end Parser

end GateAsm
