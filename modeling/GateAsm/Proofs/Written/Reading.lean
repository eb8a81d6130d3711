import GateAsm.Proofs.Written.Lines

/-!
# Lines that are read again

The parser reads the text of lines back as the same lines, if they can run and are separated. Where they
are not, a bare instruction takes the names of the results in the next line for its operands, and the
equal sign behind them is an error.
-/

namespace GateAsm

/-! ## Names taken for operands -/

theorem operands_of_names {o : OperandSyntax} {os : List OperandSyntax} {n : String} {ns : List String}
    {rest us : List Word}
    (h : o.words ++ (CallSyntax.argumentWords os ++ rest) =
      ⟨.valueName, n⟩ :: ((ns.flatMap fun n => [.mark .comma, ⟨.valueName, n⟩]) ++ (.mark .equal :: us))) :
    firstKind rest .endOfText = .comma ∨ firstKind rest .endOfText = .equal := by
  induction os generalizing o n ns with
  | nil =>
    obtain ⟨-, h⟩ := List.cons.inj h
    cases hp : o.parts with
    | some ps => rw [hp] at h; cases ns <;> exact absurd (List.cons.inj h).1 (by simp [Word.mark])
    | none =>
      rw [hp] at h
      have h : rest = _ := h
      cases ns <;> simp [h]
  | cons o' os ih =>
    obtain ⟨-, h⟩ := List.cons.inj h
    cases hp : o.parts with
    | some ps => rw [hp] at h; cases ns <;> exact absurd (List.cons.inj h).1 (by simp [Word.mark])
    | none =>
      rw [hp] at h
      cases ns with
      | nil => exact absurd (List.cons.inj h).1 (by simp [Word.mark])
      | cons m ns =>
        have tail : (o'.words ++ CallSyntax.argumentWords os) ++ rest = ⟨.valueName, m⟩ ::
            ((ns.flatMap fun n => [.mark .comma, ⟨.valueName, n⟩]) ++ (.mark .equal :: us)) := (List.cons.inj h).2
        exact ih (List.append_assoc .. ▸ tail)

/-- An instruction that has read nothing behind its angle goes on with the name of a value. -/
theorem valueName_openers {k : Kind} {g : GroupSyntax} (ho : g.operands = []) (ht : g.tags = none) (hty : g.types = [])
    (hr : g.results = []) : .valueName ∈ g.openers k := by
  unfold GroupSyntax.openers
  rw [ho, ht, hty, hr]
  cases k.operandSlots <;> simp [operandOpeners]

theorem firstKind_behind {g : GroupSyntax} {vs : List Word} {j k : TokenKind} (hj : j ∉ [.openBrace, .colon, .arrow])
    (h : firstKind (bracedWords g.tags ++ (TypeSyntax.marked .colon g.types ++
      (TypeSyntax.marked .arrow g.results ++ vs))) k = j) :
    g.tags = none ∧ g.types = [] ∧ g.results = [] ∧ firstKind vs k = j := by
  simp only [firstKind_append, GroupSyntax.firstKind_braced, GroupSyntax.firstKind_marked] at h
  simp only [List.mem_cons, List.not_mem_nil, or_false, not_or] at hj
  split at h
  · split at h
    · split at h
      · exact ⟨‹_›, ‹_›, ‹_›, h⟩
      · exact absurd h.symm hj.2.2
    · exact absurd h.symm hj.2.1
  · exact absurd h.symm hj.1

theorem ends_within_names {k : Kind} {g : GroupSyntax} {ns : List String} {us vs : List Word} (hns : ns ≠ [])
    (h : GroupSyntax.operandWords g.operands ++ (bracedWords g.tags ++ (TypeSyntax.marked .colon g.types ++
      (TypeSyntax.marked .arrow g.results ++ vs))) = LineSyntax.nameWords ns ++ us)
    (hopen : firstKind vs .endOfText ∉ g.openers k) :
    firstKind vs .endOfText = .comma ∨ firstKind vs .endOfText = .equal := by
  obtain ⟨n, ns, rfl⟩ := List.exists_cons_of_ne_nil hns
  have names : LineSyntax.nameWords (n :: ns) ++ us =
      ⟨.valueName, n⟩ :: ((ns.flatMap fun n => [.mark .comma, ⟨.valueName, n⟩]) ++ (.mark .equal :: us)) := by
    simp [LineSyntax.nameWords, listed_cons, List.flatMap_map]
  rw [names] at h
  cases ho : g.operands with
  | nil =>
    rw [ho] at h
    have first := congrArg (firstKind · .endOfText) h
    obtain ⟨ht, hty, hr, hv⟩ := firstKind_behind (j := .valueName) (by decide) first
    exact absurd (hv ▸ valueName_openers ho ht hty hr) hopen
  | cons o os =>
    rw [ho, GroupSyntax.operandWords, List.map_cons, listed_cons, List.append_assoc] at h
    rcases operands_of_names h with first | first
    · exact .inl (firstKind_behind (by decide) first).2.2.2
    · exact .inr (firstKind_behind (by decide) first).2.2.2

/-! ## Bare instructions -/

theorem Statement.bare_form {k : Kind} {m : Statement} (h : m.Writable k) (hb : m.Bare) :
    k.callForm = false ∧ ∃ a : AngleSyntax, m.form = .generic ⟨a, [], none, [], []⟩ ∧
      (a = .absent ∨ ∃ d, a = .float d) := by
  obtain ⟨htypes, htags, hresults⟩ := hb
  have hfits := h.fits
  have hcount := h.types
  unfold form
  unfold Content.Fits at hfits
  cases hc : m.content.head with
  | call callee count =>
    rw [hc] at hfits
    obtain ⟨t, ht⟩ := h.single hfits.1
    rw [ht] at hresults; cases hresults
  | generic a =>
    rw [hc] at hfits
    rw [htypes, Content.mains, hc, List.length_nil, eq_comm, List.length_eq_zero_iff, List.append_eq_nil_iff,
      List.map_eq_nil_iff] at hcount
    obtain ⟨hrefs, hops⟩ := hcount
    refine ⟨hfits.1, a.form, by rw [htypes, htags, hresults, hops]; rfl, ?_⟩
    cases a with
    | absent => exact .inl rfl
    | literal x => exact .inr ⟨_, rfl⟩
    | reference r => cases hrefs

/-- Where a bare instruction stands in front of result names, the parser stops at a token with which no
instruction starts. -/
theorem Line.bare_reads {env : ParserEnv} {l lx : Line} {x : LineSyntax} {ns : List String} {us vs : List Word}
    (hl : l.Writable env.registry) (hb : l.statement.Bare) (hn : l.names = []) (hns : ns ≠ [])
    (hx : x.States env none lx) (hopen : firstKind vs .endOfText ∉ x.body.openers lx.kind)
    (h : x.words ++ vs = l.form.words ++ (LineSyntax.nameWords ns ++ us)) :
    firstKind vs .endOfText ∈ [.openParen, .comma, .equal] := by
  obtain ⟨hcall, a, hform, ha⟩ := Statement.bare_form hl.statement hb
  obtain ⟨names, mnemonic, body⟩ := x
  have hkind : env.registry.kind? mnemonic = some lx.kind := hx.kind
  have hbody := hx.body
  have line : l.form.words = ⟨.word, l.kind.name⟩ :: a.words := by
    rw [form, LineSyntax.words, hn, hform]
    simp [LineSyntax.nameWords, BodySyntax.words, GroupSyntax.words, GroupSyntax.operandWords, bracedWords,
      TypeSyntax.marked]
  rw [line] at h
  cases names with
  | cons n names => exact absurd (List.cons.inj h).1 (by simp)
  | nil =>
    obtain ⟨hw, h⟩ := List.cons.inj h
    obtain rfl : mnemonic = l.kind.name := by simpa using hw
    obtain hk : l.kind = lx.kind := Option.some.inj (hl.registered.symm.trans hkind)
    cases body with
    | call g => rw [← hk] at hbody; exact absurd (hcall.symm.trans hbody.1) (by decide)
    | generic g =>
      have h : g.words ++ vs = a.words ++ (LineSyntax.nameWords ns ++ us) := h
      simp only [GroupSyntax.words, List.append_assoc] at h
      -- what is read goes on into the names, and ends there or in front of the first
      have inside : GroupSyntax.operandWords g.operands ++ (bracedWords g.tags ++ (TypeSyntax.marked .colon g.types ++
          (TypeSyntax.marked .arrow g.results ++ vs))) = LineSyntax.nameWords ns ++ us →
          firstKind vs .endOfText ∈ [.openParen, .comma, .equal] := by
        intro heq
        rcases ends_within_names hns heq hopen with hv | hv <;> simp [hv]
      obtain ⟨n, ns, rfl⟩ := List.exists_cons_of_ne_nil hns
      rcases ha with rfl | ⟨d, rfl⟩
      · cases hg : g.angle with
        | absent => rw [hg] at h; exact inside h
        | _ => rw [hg] at h; exact absurd (List.cons.inj h).1 (by simp [Word.mark])
      · cases hg : g.angle with
        | absent =>
          rw [hg] at h
          have first := congrArg (firstKind · .endOfText) h
          simp only [AngleSyntax.words, List.nil_append, List.cons_append, firstKind_cons, Word.kind_mark] at first
          rw [firstKind_append, GroupSyntax.firstKind_operands] at first
          split at first
          · simp [(firstKind_behind (j := .openParen) (by decide) first).2.2.2]
          · cases first
        | float d' =>
          rw [hg] at h
          exact inside (List.cons.inj (List.cons.inj (List.cons.inj h).2).2).2
        | _ => rw [hg] at h; exact absurd (List.cons.inj (List.cons.inj h).2).1 (by simp [Word.mark])

theorem Line.Runs.names_of_bare {l : Line} {c : TypeContext} {b b' : Block} (h : l.tupled.Runs c b b')
    (hb : l.statement.Bare) : l.names = [] := by
  rcases h.count with hn | hn
  · exact hn
  · have none : l.tupled.statement.results = [] := hb.2.2
    rw [none] at hn
    exact List.length_eq_zero_iff.mp hn

/-! ## Modules -/

theorem Splits.words {ws : List Word} {ts rest : List Token} (h : Splits ws ts rest) :
    ts.map Token.word = ws ++ rest.map Token.word := by
  obtain ⟨used, rfl, rfl⟩ := h
  exact List.map_append

namespace Parser

variable {env : ParserEnv} {s t : ParserState}

theorem firstKind_map_word (ts : List Token) : firstKind (ts.map Token.word) .endOfText = nextKind ts := by
  cases ts <;> rfl

theorem nextKind_of_instructions {fuel : Nat} {y : Unit} (hr : env.registry.Sound) (hf : s.rest.length ≤ fuel)
    (hb : s.block.WellScoped) (hv : VisibleTokens s.rest) (h : Yields (instructions env fuel) s y t) :
    nextKind s.rest ∈ [.valueName, .word, .endOfText] := by
  obtain ⟨xs, hs, hend, -, -⟩ := instructions_sound (fun _ _ hk => hr.valid_of_kind? hk) hf hb hv h
  rw [hs.nextKind, hend]
  cases xs with
  | nil => simp
  | cons x xs =>
    rw [List.flatMap_cons, firstKind_append, LineSyntax.words, firstKind_append]
    cases x.1.names <;> simp [LineSyntax.nameWords, listed_cons]

section
variable {ls : List Line} {b : Block} {fuel : Nat}

theorem forms_words (ls : List Line) :
    (ls.map fun l => (l.form, l.tupled)).flatMap (·.1.words) = (ls.map Line.form).flatMap LineSyntax.words := by
  simp [List.flatMap_map]

theorem instructions_of_separated (hr : env.registry.Sound) (hf : s.rest.length ≤ fuel) (hb : s.block.WellScoped)
    (hv : VisibleTokens s.rest) (hl : ∀ l ∈ ls, l.Writable env.registry)
    (hs : Splits ((ls.map Line.form).flatMap LineSyntax.words) s.rest [])
    (hrun : Line.RunAll (ls.map Line.tupled) s.context s.block b) (hsep : Line.Separated ls) :
    ∃ t, Yields (instructions env fuel) s () t ∧ t.block = b := by
  have each : ∀ x ∈ ls.map fun l => (l.form, l.tupled), ∃ l ∈ ls, (l.form, l.tupled) = x := fun x hx =>
    List.mem_map.mp hx
  obtain ⟨t, ht, -, hblock⟩ := instructions_complete (ls.map fun l => (l.form, l.tupled)) hf hb hv
    (by rw [forms_words]; exact hs)
    (fun x hx => by obtain ⟨l, hm, rfl⟩ := each x hx; exact hr.valid_of_kind? (hl l hm).registered)
    (fun x hx => by obtain ⟨l, hm, rfl⟩ := each x hx; exact l.states_form hr (hl l hm))
    ((Line.apart_form_iff hl).mpr hsep) (by rw [List.map_map]; exact hrun)
  exact ⟨t, ht, hblock⟩

/-- A bare instruction that is read in front of a line with names leaves no start of an instruction. -/
theorem names_of_read {l l' : Line} {ws : List Word} {rest : List Token} {n : Nat} (hr : env.registry.Sound)
    (hb : s.block.WellScoped) (hv : VisibleTokens s.rest) (hl : l.Writable env.registry) (hn : l.names = [])
    (hs : Splits l.form.words s.rest rest) (hs' : Splits (l'.form.words ++ ws) rest [])
    (h : Yields (instruction env none) s n t) (hnext : nextKind t.rest ∈ [.valueName, .word, .endOfText]) :
    l.statement.Bare → l'.names = [] := by
  intro hbare
  refine Decidable.byContradiction fun hne => ?_
  obtain ⟨x, lx, hx, hopen, hstates, -⟩ := instruction_sound
    (by exact fun _ _ hk => hr.valid_of_kind? hk) hb hv h
  have words : x.words ++ t.rest.map Token.word = l.form.words ++ (LineSyntax.nameWords l'.names ++
      (⟨.word, l'.kind.name⟩ :: l'.statement.form.words ++ ws)) := by
    have below : l'.form.words = LineSyntax.nameWords l'.names ++ (⟨.word, l'.kind.name⟩ :: l'.statement.form.words) :=
      rfl
    rw [← hx.words, hs.words, hs'.words, below]
    simp
  have stops := Line.bare_reads hl hbare hn hne hstates (by rw [firstKind_map_word]; exact hopen) words
  rw [firstKind_map_word] at stops
  revert stops hnext
  cases nextKind t.rest <;> simp

/-- Lines that can run and are read again are separated. -/
theorem separated_of_instructions (hr : env.registry.Sound) (hf : s.rest.length ≤ fuel) (hb : s.block.WellScoped)
    (hv : VisibleTokens s.rest) (hl : ∀ l ∈ ls, l.Writable env.registry)
    (hs : Splits ((ls.map Line.form).flatMap LineSyntax.words) s.rest [])
    (hrun : Line.RunAll (ls.map Line.tupled) s.context s.block b) (h : Yields (instructions env fuel) s () t) :
    Line.Separated ls := by
  induction ls generalizing s fuel with
  | nil => trivial
  | cons l ls ih =>
    cases ls with
    | nil => trivial
    | cons l' ls =>
      obtain ⟨b₁, hrun1, hrun2⟩ := hrun
      have hwl := hl l List.mem_cons_self
      obtain ⟨rest, hs1, hs2⟩ := Splits.append_iff.mp (show Splits (l.form.words ++
        (l'.form.words ++ (ls.map Line.form).flatMap LineSyntax.words)) s.rest [] from hs)
      have hfirst : nextKind s.rest ≠ .endOfText := by
        rw [hs1.nextKind, ← List.append_nil l.form.words, Line.firstKind_form]
        split <;> exact nofun
      cases fuel with
      | zero => rw [List.length_eq_zero_iff.mp (Nat.le_zero.mp hf)] at hfirst; exact absurd rfl hfirst
      | succ fuel =>
        rw [instructions, yields_atEnd_bind, if_neg (by simpa using hfirst)] at h
        obtain ⟨n, u, hone, hmore⟩ := yields_bind.mp h
        obtain ⟨x, lx, hx, -, -, hrunx, -, -⟩ := instruction_sound
          (by exact fun _ _ hk => hr.valid_of_kind? hk) hb hv hone
        have hlen : u.rest.length ≤ fuel := hx.rest_le x.words_ne_nil hf
        have next := nextKind_of_instructions hr hlen (hrunx.wellScoped hb) (hv.sublist hx.sublist) hmore
        -- a bare instruction in front of names would have swallowed the first of them
        have apart : l.statement.Bare → l'.names = [] := fun hbare =>
          names_of_read hr hb hv hwl (hrun1.names_of_bare hbare) hs1 hs2 hone next hbare
        refine ⟨apart, ?_⟩
        have ends : nextKind rest ∉ l.form.body.openers l.tupled.kind := by
          obtain ⟨named, word, -⟩ := Statement.openers_form hwl.statement
          rw [hs2.nextKind, Line.firstKind_form]
          show _ ∉ l.statement.form.openers l.kind
          split
          · exact word
          · next hn => exact fun hm => hn (apart (named.mp hm))
        -- so the line itself was read, and the rest is read from where it ends
        obtain ⟨v, hread, hrest, hblock, hctx⟩ := instruction_complete (x := l.form) (l := l.tupled)
          (hr.valid_of_kind? hwl.registered) hb hv hs1 ends (l.states_form hr hwl) hrun1
        obtain ⟨-, rfl⟩ := hone.unique hread
        exact ih hlen (hblock ▸ hrun1.wellScoped hb) (hv.sublist hx.sublist)
          (fun y hy => hl y (List.mem_cons_of_mem _ hy)) (hrest ▸ hs2) (by rw [hctx, hblock]; exact hrun2) hmore

end

end Parser

/-! ## Whole texts -/

namespace Reading

variable {α : Type} {p : Parser α} {text : String} {c : TypeContext} {b b' : Block} {a : α}

theorem visible_of_spelled {ts : List Token} (h : ∀ w ∈ ts.map Token.word, w.Spelled) : Parser.VisibleTokens ts := by
  intro t ht hk
  have := h t.word (List.mem_map_of_mem ht)
  unfold Word.Spelled at this
  rw [Token.kind_word, hk] at this
  have same : t.word.text = t.text := by rw [Token.word, hk]; rfl
  exact (same ▸ this : IsValueName t.text).visible

theorem run_ok (h : (run p text c b).answer = .ok a) : ∃ s t : ParserState, s.block = b ∧ s.context = c ∧
    (∀ w ∈ s.rest.map Token.word, w.Spelled) ∧ Parser.Yields p s a t ∧ t.block = (run p text c b).block := by
  unfold run at h ⊢
  cases htokens : TokenStream.ofText text with
  | error e => rw [htokens] at h; cases h
  | ok tokens =>
    rw [htokens] at h
    refine ⟨.start tokens c b, (p (.start tokens c b)).2, rfl, rfl, (lexes_of_ofText htokens).2, ?_, rfl⟩
    exact Prod.ext h rfl

theorem run_of_lexes {ws : List Word} (h : Lexes text.toList ws) : ∃ s : ParserState, s.block = b ∧ s.context = c ∧
    Splits ws s.rest [] ∧ Parser.VisibleTokens s.rest ∧ ∀ a b', (run p text c b).answer = .ok a ∧
      (run p text c b).block = b' ↔ ∃ t, Parser.Yields p s a t ∧ t.block = b' := by
  obtain ⟨tokens, htokens, hwords⟩ := ofText_of_lexes h
  refine ⟨.start tokens c b, rfl, rfl, ⟨tokens.tokens, (List.append_nil _).symm, hwords⟩,
    visible_of_spelled (lexes_of_ofText htokens).2, fun a b' => ?_⟩
  unfold run
  rw [htokens]
  constructor
  · rintro ⟨ha, hb⟩; exact ⟨_, Prod.ext ha rfl, hb⟩
  · rintro ⟨t, ht, rfl⟩
    exact ⟨congrArg Prod.fst ht, congrArg (fun x => ParserState.block (Prod.snd x)) ht⟩

section
variable {env : ParserEnv} {ls : List Line}

/-- The text of lines that can run is read again exactly if the lines are separated, and then comes to the
block in which they have run. -/
theorem module_moduleText (hr : env.registry.Sound) (hl : ∀ l ∈ ls, l.Writable env.registry) (indent : Nat)
    (hb : b.WellScoped) (hrun : Line.RunAll (ls.map Line.tupled) c b b') :
    ((module env (moduleText indent ls) c b).answer = .ok () ↔ Line.Separated ls) ∧
      (Line.Separated ls → (module env (moduleText indent ls) c b).block = b') := by
  obtain ⟨s, rfl, rfl, hs, hv, read⟩ := run_of_lexes (p := Parser.module env) (c := c) (b := b)
    (emits_moduleText hl indent).lexes
  have whole : ∀ t, Parser.Yields (Parser.module env) s () t ↔
      Parser.Yields (Parser.instructions env s.rest.length) s () t := fun t => Parser.yields_get_bind
  have complete : Line.Separated ls → (module env (moduleText indent ls) s.context s.block).answer = .ok () ∧
      (module env (moduleText indent ls) s.context s.block).block = b' := by
    intro hsep
    obtain ⟨t, ht, hblock⟩ := Parser.instructions_of_separated hr (Nat.le_refl _) hb hv hl hs hrun hsep
    exact (read () b').mpr ⟨t, (whole t).mpr ht, hblock⟩
  refine ⟨⟨fun hok => ?_, fun hsep => (complete hsep).1⟩, fun hsep => (complete hsep).2⟩
  obtain ⟨t, ht, -⟩ := (read () _).mp ⟨hok, rfl⟩
  exact Parser.separated_of_instructions hr (Nat.le_refl _) hb hv hl hs hrun ((whole t).mp ht)

theorem yields_expectEnd {s : ParserState} (h : s.rest = []) : Parser.Yields Parser.expectEnd s () s := by
  have hend : (s.ahead 0).kind = .endOfText := by rw [Parser.kind_ahead_zero, h]; rfl
  unfold Parser.expectEnd Parser.expect Parser.expectAs
  refine Parser.yields_bind.mpr ⟨s.ahead 0, s, ?_, Parser.yields_pure.mpr ⟨rfl, rfl⟩⟩
  rw [Parser.yields_peek_bind, if_pos hend, Parser.yields_advance, h]
  exact ⟨rfl, by rw [List.drop_nil, ← h]; rfl⟩

theorem instruction_text {expected : Option Kind} {k : Kind} {m : Statement} (hr : env.registry.Sound) (hk : k.Valid)
    (hm : m.Writable k) (hkind : KindFor env.registry expected k.name k) (hb : b.WellScoped)
    (hrun : (Line.mk [] k m.tupled).Runs c b b') :
    (instruction env expected (m.text k) c b).answer = .ok b.operations.length ∧
      (instruction env expected (m.text k) c b).block = b' := by
  obtain ⟨s, rfl, rfl, hs, hv, read⟩ := run_of_lexes (c := c) (b := b)
    (p := do let op ← Parser.instruction env expected; Parser.expectEnd; return op) (Statement.emits_text hm).lexes
  obtain ⟨-, -, last⟩ := Statement.openers_form hm
  have states : (LineSyntax.mk [] k.name m.form).States env expected ⟨[], k, m.tupled⟩ :=
    ⟨rfl, hkind, Statement.states_form hr hm⟩
  have split : Splits (LineSyntax.mk [] k.name m.form).words s.rest [] := hs
  obtain ⟨t, ht, hrest, hblock, -⟩ := Parser.instruction_complete hk hb hv split last states hrun
  exact (read _ b').mpr ⟨t, Parser.yields_bind.mpr ⟨_, t, ht, Parser.yields_bind.mpr ⟨(), t, yields_expectEnd hrest,
    Parser.yields_pure.mpr ⟨rfl, rfl⟩⟩⟩, hblock⟩

end

end Reading

end GateAsm
