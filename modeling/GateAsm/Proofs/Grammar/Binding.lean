import GateAsm.Proofs.Grammar.Literal
import GateAsm.Proofs.Grammar.TypeExpr

/-!
# Binding references

`yields_bindAll` says what the parser does with the references of an instruction: it succeeds exactly if
their uses are consistent, and the block is the one in which all of them are mentioned. The tags and the
types in front of that are read by `boundOperands`, for both forms of instructions alike.
-/

namespace GateAsm.Parser

open Block

variable {registry : Registry} {s t : ParserState}

theorem ofAttr_eq_ok {α : Type} {x : Except Mismatch α} {a : α} : Readback.ofAttr x = .ok a ↔ x = .ok a := by
  cases x with
  | ok b => exact ⟨fun h => congrArg _ (Except.ok.inj h), fun h => congrArg _ (Except.ok.inj h)⟩
  | error e => exact ⟨nofun, nofun⟩

theorem yields_orStop {α : Type} {x : Readback α} {a : α} : Yields (orStop x) s a t ↔ x = .ok a ∧ t = s := by
  cases x with
  | ok b => simp [orStop, eq_comm]
  | error e => simp [orStop]

theorem yields_changeBlock {α : Type} {f : Block → Except BlockFault α × Block} {a : α} :
    Yields (changeBlock f) s a t ↔ (f s.block).1 = .ok a ∧ t = s.withBlock (f s.block).2 := by
  unfold changeBlock
  rw [yields_get_bind]
  simp only [yields_bind, yields_set]
  cases h : (f s.block).1 with
  | ok b => simp [ParserState.withBlock, eq_comm]
  | error e => simp

theorem yields_bindName {r : Reference} {ty : Ty} {id : Nat} (hr : Visible r.name) :
    Yields (Parser.bind registry r ty) s id t ↔
      (∀ id', s.block.lookup r.name = some id' → s.block.HasType id' ty) ∧
      id = (s.block.lookup r.name).getD s.block.values.length ∧
      t = s.withBlock (s.block.mention (r.name, ty)) := by
  unfold Parser.bind
  simp only [yields_get_bind]
  cases hl : s.block.lookup r.name with
  | none =>
    have hadd := addInput_text (t := ty) ((lookup_eq hr).symm.trans hl)
    simp only [yields_changeBlock, orUnchanged, hadd, mention, hl]
    constructor
    · rintro ⟨h, rfl⟩
      exact ⟨by simp, (Except.ok.inj h).symm, rfl⟩
    · rintro ⟨-, rfl, rfl⟩
      exact ⟨rfl, rfl⟩
  | some i =>
    have hm : s.block.mention (r.name, ty) = s.block := mention_of_some hl
    simp only [yields_bind, yields_orStop, yields_ite, yields_pure, not_yields_fail, and_false, exists_false,
      or_false, hm]
    constructor
    · rintro ⟨ok, u, ⟨hok, rfl⟩, hc, rfl, rfl⟩
      refine ⟨fun id' h => ?_, rfl, rfl⟩
      cases h
      subst hc
      exact ofAttr_eq_ok.mp hok
    · rintro ⟨h, rfl, rfl⟩
      exact ⟨true, _, ⟨ofAttr_eq_ok.mpr (h _ rfl), rfl⟩, rfl, rfl, rfl⟩

theorem yields_bindAll {rs : List Reference} {tys : List Ty} {ids : List Nat} (hb : s.block.WellScoped)
    (hv : ∀ r ∈ rs, Visible r.name) :
    Yields (bindAll registry rs tys) s ids t ↔
      rs.length = tys.length ∧ s.block.Consistent ((rs.map (·.name)).zip tys) ∧
      ids = rs.map (fun r => ((s.block.mentionAll ((rs.map (·.name)).zip tys)).lookup r.name).getD 0) ∧
      t = s.withBlock (s.block.mentionAll ((rs.map (·.name)).zip tys)) := by
  -- each use is checked in the block that the uses in front of it leave
  induction rs generalizing s tys ids with
  | nil =>
    cases tys with
    | nil =>
      simp only [bindAll, yields_pure]
      constructor
      · rintro ⟨rfl, rfl⟩
        exact ⟨rfl, ⟨by simp, by simp⟩, rfl, rfl⟩
      · rintro ⟨-, -, rfl, rfl⟩
        exact ⟨rfl, rfl⟩
    | cons ty tys => simp [bindAll]
  | cons r rs ih =>
    cases tys with
    | nil => simp [bindAll]
    | cons ty tys =>
      have hr : Visible r.name := hv r (by simp)
      have hvs : ∀ r ∈ rs, Visible r.name := fun x hx => hv x (by simp [hx])
      have hzip : ∀ u ∈ (r.name, ty) :: (rs.map (·.name)).zip tys, Visible u.1 := by
        intro u hu
        rcases List.mem_cons.mp hu with rfl | hu
        · exact hr
        · obtain ⟨x, hx, he⟩ := List.mem_map.mp (List.of_mem_zip hu).1
          rw [← he]
          exact hvs x hx
      have hm : (s.withBlock (s.block.mention (r.name, ty))).block.WellScoped := wellScoped_mention hb _
      simp only [bindAll, yields_bind, yields_bindName hr, yields_pure, List.map_cons, List.zip_cons_cons,
        consistent_cons_iff hb hzip, mentionAll_cons, List.length_cons, Nat.add_right_cancel_iff]
      have hself := lookup_mentionAll_of_some hr (lookup_mention_self (b := s.block) (t := ty) hr)
        ((rs.map (·.name)).zip tys)
      constructor
      · rintro ⟨id, u, ⟨hknown, rfl, rfl⟩, ids, v, hids, rfl, rfl⟩
        obtain ⟨hlen, hcons, rfl, rfl⟩ := (ih hm hvs).mp hids
        refine ⟨hlen, ⟨hknown, hcons⟩, ?_, rfl⟩
        rw [hself]; rfl
      · rintro ⟨hlen, ⟨hknown, hcons⟩, rfl, rfl⟩
        refine ⟨_, _, ⟨hknown, rfl, rfl⟩, _, _, (ih hm hvs).mpr ⟨hlen, hcons, rfl, rfl⟩, ?_, rfl⟩
        rw [hself]; rfl

theorem yields_countedTypes {n : Nat} {ts : List Ty} :
    Yields (countedTypes registry n) s ts t ↔ Yields (colonTypes registry) s ts t ∧ ts.length = n := by
  simp only [countedTypes, yields_location_bind, yields_bind (p := colonTypes _), yields_require_bind, yields_pure]
  constructor
  · rintro ⟨us, u, h, hn, rfl, rfl⟩; exact ⟨h, by simpa using hn⟩
  · rintro ⟨h, hn⟩; exact ⟨ts, t, h, by simpa using hn, rfl, rfl⟩

def typedState (s : ParserState) (types : List Ty) : ParserState := (s.keepingAll types).interning .index

@[simp]
theorem block_typedState (types : List Ty) : (typedState s types).block = s.block := by simp [typedState]

@[simp]
theorem tags_typedState (types : List Ty) : (typedState s types).tags = s.tags := by simp [typedState]

@[simp]
theorem context_typedState (types : List Ty) :
    (typedState s types).context = (indexAfter s.context types).2 := by simp [typedState, indexAfter]

theorem typedState_withTags (types : List Ty) (tags : List (String × Attr)) :
    typedState (s.withTags tags) types = (typedState s types).withTags tags := by
  simp [typedState, ParserState.keepingAll_withTags, ParserState.interning_withTags]

/-- Tags and types are read behind operands exactly if the tags are the user's own, each operand outside of
brackets has a type, and the operands are consistent. -/
theorem yields_boundOperands {env : ParserEnv} {k : Kind} {ops : List (Reference × Bool)} {ids : List Nat}
    (hb : s.block.WellScoped) (hv : ∀ o ∈ ops, Visible o.1.name) :
    Yields (boundOperands env k ops) s ids t ↔
      ∃ es user ws types mid rest, Splits (bracedWords es) s.rest mid ∧ Splits (TypeSyntax.marked .colon ws) mid rest ∧
        tagValues? (es.getD []) = some user ∧ Addable k.structuralTags s.tags user ∧
        (es = none → nextKind mid ≠ .openBrace) ∧ TypeSyntax.tys? env.registry ws = some types ∧
        nextKind rest ≠ TypeSyntax.next .colon ws ∧ types.length = (ops.filter (!·.2)).length ∧
        s.block.Consistent (typedUses s.context (ops.map fun o => (o.1.name, o.2)) types) ∧
        ids = ops.map (fun o => ((s.block.mentionAll
          (typedUses s.context (ops.map fun o => (o.1.name, o.2)) types)).lookup o.1.name).getD 0) ∧
        t = (((typedState s types).withTags (s.tags ++ user)).withBlock (s.block.mentionAll
          (typedUses s.context (ops.map fun o => (o.1.name, o.2)) types))).facing rest := by
  have names : ∀ types : List Ty, typedUses s.context (ops.map fun o => (o.1.name, o.2)) types =
      ((ops.map (·.1)).map (·.name)).zip
        (operandTypes (ops.map (·.2)) (indexAfter s.context types).1 (s.context.keepAll types).1) := by
    intro types; simp [typedUses, Function.comp_def]
  have hv' : ∀ r ∈ ops.map (·.1), Visible r.name := by
    intro r hr
    obtain ⟨o, ho, rfl⟩ := List.mem_map.mp hr
    exact hv o ho
  -- tags, tokens, block and context are changed apart from each other
  have final : ∀ (types : List Ty) (mid rest : List Token) (user : List (String × Attr)),
      (((((s.withTags (s.tags ++ user)).facing mid).keepingAll types).facing rest).interning .index) =
        ((typedState s types).withTags (s.tags ++ user)).facing rest := by
    intro types mid rest user
    rw [ParserState.interning_facing, ParserState.keepingAll_facing, ParserState.interning_facing,
      ParserState.facing_facing, ← typedState_withTags]
    rfl
  simp only [boundOperands, yields_bind, yields_optionalTags, yields_countedTypes, yields_colonTypes, yields_intern]
  constructor
  · rintro ⟨-, u, ⟨es, user, mid, hes, huser, hadd, hopen, rfl⟩, kept, v,
      ⟨⟨ws, types, rest, hws, htys, hnext, rfl, rfl⟩, hcount⟩, i, w, ⟨rfl, rfl⟩, hbind⟩
    rw [yields_bindAll (by simpa using hb) hv'] at hbind
    simp only [ParserState.block_interning, ParserState.block_facing, ParserState.block_keepingAll,
      ParserState.block_withTags, ParserState.context_facing, ParserState.context_keepingAll,
      ParserState.context_withTags] at hbind hcount
    obtain ⟨-, hcons, rfl, rfl⟩ := hbind
    refine ⟨es, user, ws, types, mid, rest, hes, hws, huser, hadd, hopen, htys, hnext, ?_, ?_, ?_, ?_⟩
    · rw [← hcount, length_keepAll]
    · rw [names]; exact hcons
    · rw [names, List.map_map]; rfl
    · rw [names, final, ParserState.withBlock_facing]
      rfl
  · rintro ⟨es, user, ws, types, mid, rest, hes, hws, huser, hadd, hopen, htys, hnext, hcount, hcons, rfl, rfl⟩
    rw [names] at *
    refine ⟨⟨⟩, _, ⟨es, user, mid, hes, huser, hadd, hopen, rfl⟩, (s.context.keepAll types).1, _,
      ⟨⟨ws, types, rest, hws, htys, hnext, by simp, rfl⟩, by rw [length_keepAll, hcount]⟩,
      (indexAfter s.context types).1, _, ⟨by simp [indexAfter], rfl⟩, ?_⟩
    rw [yields_bindAll (by simpa using hb) hv']
    simp only [ParserState.block_interning, ParserState.block_facing, ParserState.block_keepingAll,
      ParserState.block_withTags]
    refine ⟨?_, hcons, ?_, ?_⟩
    · rw [List.length_map, length_operandTypes, List.length_map]
      rw [length_keepAll, hcount, List.filter_map, List.length_map]
      rfl
    · simp only [List.map_map, Function.comp_def]
    · rw [← ParserState.withBlock_facing, ← final types mid rest user]

section
variable {env : ParserEnv} {k : Kind} {ops : List (Reference × Bool)} {flagged : List (String × Bool)}
  {es : Option (List (String × LiteralSyntax))} {user : List (String × Attr)} {ws : List TypeSyntax}
  {types : List Ty} {mid rest : List Token} {ids : List Nat}

theorem filter_flags (hops : ops.map (fun o => (o.1.name, o.2)) = flagged) :
    (ops.filter (!·.2)).length = (flagged.filter (!·.2)).length := by
  rw [← hops, List.filter_map, List.length_map]; rfl

theorem map_names (hops : ops.map (fun o => (o.1.name, o.2)) = flagged) (f : String → Nat) :
    ops.map (fun o => f o.1.name) = flagged.map (fun o => f o.1) := by
  rw [← hops, List.map_map]; rfl

theorem boundOperands_sound (hops : ops.map (fun o => (o.1.name, o.2)) = flagged) (hb : s.block.WellScoped)
    (hv : ∀ o ∈ flagged, Visible o.1) (h : Yields (boundOperands env k ops) s ids t) :
    ∃ es user ws types mid, Splits (bracedWords es) s.rest mid ∧ Splits (TypeSyntax.marked .colon ws) mid t.rest ∧
      tagValues? (es.getD []) = some user ∧ Addable k.structuralTags s.tags user ∧
      (es = none → nextKind mid ≠ .openBrace) ∧ TypeSyntax.tys? env.registry ws = some types ∧
      nextKind t.rest ≠ TypeSyntax.next .colon ws ∧ types.length = (flagged.filter (!·.2)).length ∧
      s.block.Consistent (typedUses s.context flagged types) ∧
      ids = flagged.map (fun o => (t.block.lookup o.1).getD 0) ∧
      t.block = s.block.mentionAll (typedUses s.context flagged types) ∧
      t.context = (indexAfter s.context types).2 ∧ t.tags = s.tags ++ user := by
  have hv' : ∀ o ∈ ops, Visible o.1.name := fun o ho => hv _ (hops ▸ List.mem_map.mpr ⟨o, ho, rfl⟩)
  obtain ⟨es, user, ws, types, mid, rest, hes, hws, huser, hown, hopen, htys, hnext, hcount, hcons, rfl, rfl⟩ :=
    (yields_boundOperands hb hv').mp h
  rw [hops] at hcons ⊢
  refine ⟨es, user, ws, types, mid, hes, hws, huser, hown, hopen, htys, hnext, ?_, hcons, ?_, rfl, ?_, rfl⟩
  · rw [hcount, filter_flags hops]
  · exact map_names hops fun n => ((s.block.mentionAll (typedUses s.context flagged types)).lookup n).getD 0
  · simp

theorem boundOperands_complete (hops : ops.map (fun o => (o.1.name, o.2)) = flagged) (hb : s.block.WellScoped)
    (hv : ∀ o ∈ flagged, Visible o.1) (hes : Splits (bracedWords es) s.rest mid)
    (hws : Splits (TypeSyntax.marked .colon ws) mid rest) (huser : tagValues? (es.getD []) = some user)
    (hown : Addable k.structuralTags s.tags user) (hopen : es = none → nextKind mid ≠ .openBrace)
    (htys : TypeSyntax.tys? env.registry ws = some types) (hnext : nextKind rest ≠ TypeSyntax.next .colon ws)
    (hcount : types.length = (flagged.filter (!·.2)).length)
    (hcons : s.block.Consistent (typedUses s.context flagged types)) :
    ∃ t, Yields (boundOperands env k ops) s (flagged.map fun o =>
        ((s.block.mentionAll (typedUses s.context flagged types)).lookup o.1).getD 0) t ∧ t.rest = rest ∧
      t.block = s.block.mentionAll (typedUses s.context flagged types) ∧
      t.context = (indexAfter s.context types).2 ∧ t.tags = s.tags ++ user := by
  have hv' : ∀ o ∈ ops, Visible o.1.name := fun o ho => hv _ (hops ▸ List.mem_map.mpr ⟨o, ho, rfl⟩)
  refine ⟨_, (yields_boundOperands hb hv').mpr ⟨es, user, ws, types, mid, rest, hes, hws, huser, hown, hopen, htys,
    hnext, ?_, ?_, ?_, rfl⟩, rfl, ?_, ?_, rfl⟩
  · rw [hcount, filter_flags hops]
  · rw [hops]; exact hcons
  · rw [hops]
    exact (map_names hops fun n => ((s.block.mentionAll (typedUses s.context flagged types)).lookup n).getD 0).symm
  · rw [hops]; rfl
  · simp

end

end GateAsm.Parser
