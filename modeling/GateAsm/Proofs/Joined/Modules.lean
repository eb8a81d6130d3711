import GateAsm.Proofs.Committed
import GateAsm.Proofs.Joined.Relocated

/-!
# Modules below each other

The parser does not see where a line ends: an instruction goes on as long as the next token could. Behind the
operands of an instruction that may be another value or another instruction's result, but never behind its tags or
its types. So a text whose last instruction has tags or types can be put in front of any other text, and reading
both is reading one and then the other (`Reading.module_joined`).
-/

namespace GateAsm

/-! ## Tags and types end an instruction -/

def TokenKind.opensClause : TokenKind → Bool
  | openBrace | colon | arrow => true
  | _ => false

def NoClause (ws : List Word) : Prop := ∀ w ∈ ws, w.kind.opensClause = false

theorem noClause_nameWords (ns : List String) : NoClause (LineSyntax.nameWords ns) := by
  cases ns with
  | nil => exact nofun
  | cons n ns =>
    refine List.forall_mem_append.mpr ⟨forall_listed rfl fun ws hws => ?_, List.forall_mem_singleton.mpr rfl⟩
    obtain ⟨m, -, rfl⟩ := List.mem_map.mp hws
    exact List.forall_mem_singleton.mpr rfl

theorem AngleSyntax.noClause_words (a : AngleSyntax) : NoClause a.words := by
  have closing : NoClause [.mark .closeParen] := List.forall_mem_singleton.mpr rfl
  cases a with
  | absent => exact nofun
  | empty => exact List.forall_mem_cons.mpr ⟨rfl, closing⟩
  | float _ | int _ | reference _ => exact List.forall_mem_cons.mpr ⟨rfl, List.forall_mem_cons.mpr ⟨rfl, closing⟩⟩

theorem OperandSyntax.noClause_words (o : OperandSyntax) : NoClause o.words := by
  refine List.forall_mem_cons.mpr ⟨rfl, ?_⟩
  cases o.parts with
  | none => exact nofun
  | some ps =>
    refine List.forall_mem_cons.mpr ⟨rfl, List.forall_mem_append.mpr ⟨forall_listed rfl fun ws hws => ?_,
      List.forall_mem_singleton.mpr rfl⟩⟩
    obtain ⟨p, -, rfl⟩ := List.mem_map.mp hws
    cases p with
    | int d => exact List.forall_mem_singleton.mpr rfl
    | reference n => exact List.forall_mem_singleton.mpr rfl

theorem LineSyntax.openers_of_clause {x : LineSyntax} {k : Kind} {w : Word} (hw : w ∈ x.words)
    (hclause : w.kind.opensClause = true) :
    ∀ next ∈ x.body.openers k, next = .arrow ∨ next = .colon ∨ next = .comma := by
  obtain ⟨names, mnemonic, body⟩ := x
  cases body with
  | call g => exact nofun
  | generic g =>
    obtain ⟨angle, operands, tags, types, results⟩ := g
    intro next hnext
    cases results with
    | cons t ts => exact .inr (.inr (List.mem_singleton.mp hnext))
    | nil =>
      cases types with
      | cons t ts =>
        have opens : next = .arrow ∨ next = .comma := by simpa using show next ∈ [TokenKind.arrow, .comma] from hnext
        exact opens.imp_right .inr
      | nil =>
        cases tags with
        | some es =>
          have opens : next = .arrow ∨ next = .colon := by simpa using show next ∈ [TokenKind.arrow, .colon] from hnext
          exact opens.imp_right .inl
        | none =>
          -- without tags and types no word starts any
          have front : NoClause (words ⟨names, mnemonic, .generic ⟨angle, operands, none, [], []⟩⟩) := by
            refine List.forall_mem_append.mpr ⟨noClause_nameWords names, List.forall_mem_cons.mpr ⟨rfl, ?_⟩⟩
            refine List.forall_mem_append.mpr ⟨angle.noClause_words, List.forall_mem_append.mpr ⟨?_, nofun⟩⟩
            refine forall_listed rfl fun ws hws => ?_
            obtain ⟨o, -, rfl⟩ := List.mem_map.mp hws
            exact o.noClause_words
          rw [front w hw] at hclause
          cases hclause

/-! ## An instruction in front of other tokens -/

/-- A text that is empty or starts as an instruction does. -/
def StartsLine (ts : List Token) : Prop := ∀ t ∈ ts.head?, t.kind = .valueName ∨ t.kind = .word

instance (ts : List Token) : Decidable (StartsLine ts) :=
  inferInstanceAs (Decidable (∀ t ∈ ts.head?, t.kind = .valueName ∨ t.kind = .word))

theorem StartsLine.nextKind {ts : List Token} (h : StartsLine ts) :
    Parser.nextKind ts = .valueName ∨ Parser.nextKind ts = .word ∨ Parser.nextKind ts = .endOfText := by
  cases ts with
  | nil => exact .inr (.inr rfl)
  | cons t ts => exact (h t rfl).imp_right .inl

theorem Splits.in_front {ws : List Word} {ts rest : List Token} (h : Splits ws ts rest) (more : List Token) :
    Splits ws (ts ++ more) (rest ++ more) := by
  obtain ⟨used, rfl, hw⟩ := h
  exact ⟨used, List.append_assoc .., hw⟩

structure ParserState.Before (back : TokenStream) (s s' : ParserState) : Prop where
  rest : s'.rest = s.rest ++ back.tokens
  endLocation : s'.endLocation = back.endLocation
  block : s'.block = s.block
  context : s'.context = s.context
  tags : s'.tags = s.tags

namespace Parser

variable {env : ParserEnv} {expected : Option Kind} {s s' t t' u : ParserState} {back : TokenStream} {op n m : Nat}

theorem frame_endLocation : Frame fun s t => t.endLocation = s.endLocation where
  refl _ := rfl
  trans h h' := h'.trans h
  consume _ := rfl
  report _ _ := rfl
  record _ _ := rfl
  context _ _ _ _ := rfl
  tags _ _ := rfl
  input _ _ _ _ _ _ _ := rfl

theorem instruction_keeps (h : Yields (instruction env expected) s op t) :
    t.endLocation = s.endLocation ∧ t.tags = s.tags := by
  obtain ⟨v, x, ts, u, b, st, labels, first, hv, second, -, rfl⟩ := instruction_front frame_endLocation h
  have same : u.endLocation = v.endLocation := second
  exact ⟨same.trans first, rfl⟩

/-- An instruction is read in front of other tokens as it is at the end of a text, unless they could go on with it. -/
theorem instruction_in_front (hs : s.Before back s') (hk : ∀ x k, KindFor env.registry expected x k → k.Valid)
    (hb : s.block.WellScoped) (hv : VisibleTokens (s.rest ++ back.tokens)) (hstart : StartsLine back.tokens)
    (hlast : t.rest = [] → ∃ x ∈ s.rest, x.kind.opensClause = true)
    (h : Yields (instruction env expected) s op t) :
    ∃ t', Yields (instruction env expected) s' op t' ∧ t.Before back t' := by
  obtain ⟨x, l, split, hopen, hx, hrun, hcontext, rfl⟩ := instruction_sound hk hb
    (hv.sublist (List.sublist_append_left ..)) h
  have apart : nextKind (t.rest ++ back.tokens) ∉ x.body.openers l.kind := by
    cases hrest : t.rest with
    | cons y ys =>
      rw [hrest] at hopen
      exact hopen
    | nil =>
      obtain ⟨y, hy, hclause⟩ := hlast hrest
      obtain ⟨used, hused, hwords⟩ := split
      rw [hrest, List.append_nil] at hused
      have written : y.word ∈ x.words := hwords ▸ List.mem_map_of_mem (hused ▸ hy)
      intro hnext
      have := LineSyntax.openers_of_clause written hclause _ hnext
      rcases hstart.nextKind with next | next | next <;> simp [next] at this
  obtain ⟨t', read, hrest, hblock, hcontext'⟩ := instruction_complete (s := s') (hk _ _ hx.kind) (hs.block ▸ hb)
    (hs.rest ▸ hv) (hs.rest ▸ split.in_front back.tokens) apart hx (hs.context ▸ hs.block ▸ hrun)
  rw [hs.block] at read
  obtain ⟨hend, htags⟩ := instruction_keeps read
  refine ⟨t', read, hrest, hend.trans hs.endLocation, hblock, ?_, ?_⟩
  · rw [hcontext', hs.context, hcontext]
  · rw [htags, hs.tags, (instruction_keeps h).2]

/-! ## Instructions in front of other tokens -/

theorem instructions_end (hrest : s.rest = []) (env : ParserEnv) (fuel : Nat) :
    instructions env fuel s = (.ok (), s) := by
  cases fuel with
  | zero => rfl
  | succ fuel => rw [instructions_succ, hrest, nextKind_nil, if_pos rfl]

theorem instructions_fuel (hn : s.rest.length ≤ n) (hm : s.rest.length ≤ m) :
    instructions env n s = instructions env m s := by
  induction n generalizing m s with
  | zero =>
    have hrest : s.rest = [] := List.eq_nil_of_length_eq_zero (Nat.le_zero.mp hn)
    rw [instructions_end hrest, instructions_end hrest]
  | succ n ih =>
    cases m with
    | zero =>
      have hrest : s.rest = [] := List.eq_nil_of_length_eq_zero (Nat.le_zero.mp hm)
      rw [instructions_end hrest, instructions_end hrest]
    | succ m =>
      rw [instructions_succ, instructions_succ]
      split
      · rfl
      · refine bind_congr_at fun op u one => ?_
        have taken : u.rest.length < s.rest.length := (instruction_takes one).2
        exact ih (s := u) (by omega) (by omega)

/-- The instruction that a text ends with has tags or types, whichever it is. -/
def ClosedByClause (env : ParserEnv) (s : ParserState) : Prop :=
  ∀ n u op t, Yields (firstInstructions env n) s () u → Yields (instruction env none) u op t → t.rest = [] →
    ∃ x ∈ u.rest, x.kind.opensClause = true

theorem closedByClause_nil (hrest : s.rest = []) : ClosedByClause env s := by
  have nothing : ∀ {op t}, ¬ Yields (instruction env none) s op t := by
    intro op t h
    have := (instruction_takes h).2
    rw [hrest] at this
    cases this
  intro n u op t first last _
  cases n with
  | zero =>
    obtain ⟨-, rfl⟩ := yields_pure.mp first
    exact absurd last nothing
  | succ n =>
    obtain ⟨op', v, hone, -⟩ := yields_bind.mp first
    exact absurd hone nothing

theorem ClosedByClause.cons (hone : Yields (instruction env none) s op t)
    (hclause : t.rest = [] → ∃ x ∈ s.rest, x.kind.opensClause = true) (h : ClosedByClause env t) :
    ClosedByClause env s := by
  intro n u op' v first last hrest
  cases n with
  | zero =>
    obtain ⟨-, rfl⟩ := yields_pure.mp first
    obtain ⟨-, rfl⟩ := hone.unique last
    exact hclause hrest
  | succ n =>
    obtain ⟨op₁, w, hone', first⟩ := yields_bind.mp first
    obtain ⟨-, rfl⟩ := hone.unique hone'
    exact h n u op' v first last hrest

theorem ClosedByClause.tail (h : ClosedByClause env s) (hone : Yields (instruction env none) s op t) :
    ClosedByClause env t := by
  intro n u op' v first last hrest
  exact h (n + 1) u op' v (yields_bind.mpr ⟨op, t, hone, first⟩) last hrest

/-- **Instructions in front of other tokens** are read as they are at the end of a text, and then the parser goes on
behind them with the same block. -/
theorem instructions_in_front (hs : s.Before back s') (hk : ∀ x k, env.registry.kind? x = some k → k.Valid)
    (hb : s.block.WellScoped) (hw : ∀ w ∈ (s.rest ++ back.tokens).map Token.word, w.Spelled)
    (hstart : StartsLine back.tokens) (hn : s.rest.length ≤ n) (hclosed : ClosedByClause env s)
    (h : Yields (instructions env n) s () t) :
    t.rest = [] ∧ t.tags = s.tags ∧ ∃ t', t.Before back t' ∧
      instructions env s'.rest.length s' = instructions env t'.rest.length t' := by
  induction n generalizing s s' with
  | zero =>
    obtain ⟨-, rfl⟩ := yields_pure.mp h
    exact ⟨List.eq_nil_of_length_eq_zero (Nat.le_zero.mp hn), rfl, s', hs, rfl⟩
  | succ n ih =>
    have read : instructions env (n + 1) s = (.ok (), t) := h
    rw [instructions_succ] at read
    cases hrest : s.rest with
    | nil =>
      rw [hrest, nextKind_nil, if_pos rfl] at read
      cases read
      exact ⟨hrest, rfl, s', hs, rfl⟩
    | cons x ts =>
      have spelled : x.word.Spelled := hw x.word (List.mem_map_of_mem (by rw [hrest]; exact List.mem_cons_self))
      have more : nextKind s.rest ≠ .endOfText := by
        rw [hrest]
        exact Reading.kind_ne_endOfText spelled
      rw [if_neg more] at read
      obtain ⟨op, u, hone, hmore⟩ := yields_bind.mp read
      have kinds : ∀ x k, KindFor env.registry none x k → k.Valid := hk
      have visible : VisibleTokens (s.rest ++ back.tokens) := Reading.visible_of_spelled hw
      obtain ⟨u', hone', hu⟩ := instruction_in_front hs kinds hb visible hstart (hclosed 0 s op u rfl hone) hone
      obtain ⟨suffix, shorter⟩ := instruction_takes hone
      have hw' : ∀ w ∈ (u.rest ++ back.tokens).map Token.word, w.Spelled := fun w hmem =>
        hw w (((suffix.sublist.append_right _).map _).subset hmem)
      have wellScoped : u.block.WellScoped := by
        have left : VisibleTokens s.rest := visible.sublist (List.sublist_append_left ..)
        obtain ⟨-, l, -, -, -, hrun, -, -⟩ := instruction_sound kinds hb left hone
        exact hrun.wellScoped hb
      obtain ⟨hend, htags, t', ht, goes⟩ := ih hu wellScoped hw' (by omega) (hclosed.tail hone) hmore
      refine ⟨hend, htags.trans (instruction_keeps hone).2, t', ht, goes ▸ ?_⟩
      -- the parser takes the instruction and goes on with the other tokens
      have more' : nextKind s'.rest ≠ .endOfText := by
        rw [hs.rest, hrest]
        exact Reading.kind_ne_endOfText spelled
      have shorter' : u'.rest.length < s'.rest.length := (instruction_takes hone').2
      obtain ⟨m, hm⟩ : ∃ m, s'.rest.length = m + 1 := ⟨s'.rest.length - 1, by omega⟩
      rw [hm, instructions_succ, if_neg more', hone'.bind_eq]
      exact instructions_fuel (by omega) (Nat.le_refl _)

end Parser

/-! ## Texts below each other -/

namespace Reading

variable {env : ParserEnv} {front back text : String} {c : TypeContext} {b : Block} {tokens sf sb : TokenStream}

def thenModule (first : Reading Unit) (env : ParserEnv) (text : String) : Reading Unit :=
  module env text first.context first.block

/-- The answer that the second text has below the first one: an error is the same further down. -/
inductive Below (front : String) : Except ParseFailure Unit → Except ParseFailure Unit → Prop
  | answer : Below front (.ok ()) (.ok ())
  | error {e e' : ParseError} : e'.cause.category = e.cause.category → e'.message = e.message →
      e'.location = e.location.below front.toList → Below front (.error (.error e)) (.error (.error e'))
  | failure {f : ParseFailure} : (∀ e, f ≠ .error e) → Below front (.error f) (.error f)

theorem below_moved (answer : Except ParseFailure Unit) :
    Below front answer (answer.mapError (ParseFailure.moved (·.below front.toList))) := by
  cases answer with
  | ok a => exact .answer
  | error f =>
    cases f with
    | error e => exact .error (ParseCause.category_moved _ _) (ParseCause.message_moved _ _) rfl
    | _ => exact .failure fun _ same => by cases same

def ofOutcome {α : Type} (x : Except ParseFailure α × ParserState) : Reading α :=
  ⟨x.1, x.2.block, x.2.context, x.2.diagnostics, x.2.events⟩

theorem module_of_ofText (h : TokenStream.ofText text = .ok tokens) (env : ParserEnv) (c : TypeContext) (b : Block) :
    module env text c b = ofOutcome (Parser.instructions env tokens.tokens.length (.start tokens c b)) := by
  unfold module run
  rw [h]
  rfl

/-- Behind the instructions of a text the parser stands in front of the other text at other places. -/
theorem exists_relocation {f : Location → Location} {t t' : ParserState} (h : t.Before (sb.moved f) t')
    (hend : t.rest = [])
    (htags : t.tags = []) : ∃ m : Relocation, m.place = f ∧ t' = m.state (.start sb t.context t.block) := by
  obtain ⟨hrest, hlocation, hblock, hcontext, htags'⟩ := h
  rw [hend] at hrest
  rw [htags] at htags'
  refine ⟨⟨f, t'.diagnostics, t'.events⟩, rfl, ?_⟩
  obtain ⟨rest, endLocation, block, context, tags, diagnostics, events⟩ := t'
  dsimp only at *
  subst hrest hlocation hblock hcontext htags'
  simp only [Relocation.state, ParserState.start, List.map_nil, List.append_nil]
  rfl

/-- **Modules below each other.** If a text is read to its end and its last instruction has tags or types, it can be
put in a line above any text that is empty or starts as an instruction does: reading both at once leaves the block that
reading one after the other leaves, and both answer, or they fail alike and the place of the error differs by the
lines and the characters above. -/
theorem module_joined (hk : ∀ x k, env.registry.kind? x = some k → k.Valid) (hfront : TokenStream.ofText front = .ok sf)
    (hback : TokenStream.ofText back = .ok sb) (hb : b.WellScoped) (accepted : (module env front c b).answer = .ok ())
    (closed : Parser.ClosedByClause env (.start sf c b)) (starts : StartsLine sb.tokens) :
    (module env (front ++ "\n" ++ back) c b).block = ((module env front c b).thenModule env back).block ∧
      (module env (front ++ "\n" ++ back) c b).context = ((module env front c b).thenModule env back).context ∧
      Below front ((module env front c b).thenModule env back).answer
      (module env (front ++ "\n" ++ back) c b).answer := by
  let below : TokenStream := sb.moved (·.below front.toList)
  have joined : TokenStream.ofText (front ++ "\n" ++ back) = .ok (sf.append below) :=
    TokenStream.ofText_joined hfront hback
  have startsBelow : StartsLine below.tokens := by
    intro t ht
    rw [show below.tokens = sb.tokens.map _ from rfl, List.head?_map] at ht
    obtain ⟨y, hy, rfl⟩ := Option.map_eq_some_iff.mp ht
    exact starts y hy
  rw [module_of_ofText joined, thenModule, module_of_ofText hback]
  rw [module_of_ofText hfront] at accepted ⊢
  cases hread : Parser.instructions env sf.tokens.length (.start sf c b) with
  | mk answer t =>
    rw [hread] at accepted
    obtain rfl : answer = .ok () := accepted
    have start : (ParserState.start sf c b).Before below (.start (sf.append below) c b) := ⟨rfl, rfl, rfl, rfl, rfl⟩
    -- the first text is read to its end, and from there on the second one is read further down
    obtain ⟨hend, htags, t', before, goes⟩ := Parser.instructions_in_front start hk hb
      (lexes_of_ofText joined).2 startsBelow (Nat.le_refl _) closed hread
    obtain ⟨m, hplace, rfl⟩ := exists_relocation before hend htags
    have fuel : (m.state (.start sb t.context t.block)).rest.length = sb.tokens.length := List.length_map _
    rw [fuel, Relocation.carries_instructions env sb.tokens.length (.start sb t.context t.block)] at goes
    have whole : Parser.instructions env (sf.append below).tokens.length (.start (sf.append below) c b) = _ := goes
    rw [whole]
    dsimp only [ofOutcome]
    rcases Parser.instructions env sb.tokens.length (.start sb t.context t.block) with ⟨e | y, u⟩
    · have moved : Below front (.error e) (.error (e.moved (·.below front.toList))) := below_moved (.error e)
      rw [← hplace] at moved
      exact ⟨rfl, rfl, moved⟩
    · exact ⟨rfl, rfl, .answer⟩

theorem exists_tokens (text : String) (p : List Token → Bool)
    (h : (TokenStream.ofText text).toOption.any (p ·.tokens) = true) :
    ∃ tokens, TokenStream.ofText text = .ok tokens ∧ p tokens.tokens = true := by
  cases htokens : TokenStream.ofText text with
  | error stray => rw [htokens] at h; cases h
  | ok tokens => rw [htokens] at h; exact ⟨tokens, rfl, h⟩

/-- An instruction with an error, alone and below another one. -/
theorem module_joined_brokenSecond :
    ∃ e e', ((module ⟨.standard, false⟩ "%q = quantum.alloc -> qubit" .default .empty).thenModule ⟨.standard, false⟩
        "quantum.cx %q, %r : qubit, qubit -> 5").answer = .error (.error e) ∧
      (module ⟨.standard, false⟩ brokenSecond .default .empty).answer = .error (.error e') ∧ e'.message = e.message ∧
      e'.location = ⟨e.location.line + 1, e.location.column, e.location.offset + 28⟩ ∧
      (module ⟨.standard, false⟩ brokenSecond .default .empty).block =
        ((module ⟨.standard, false⟩ "%q = quantum.alloc -> qubit" .default .empty).thenModule ⟨.standard, false⟩
          "quantum.cx %q, %r : qubit, qubit -> 5").block := by
  let env : ParserEnv := ⟨.standard, false⟩
  let front := "%q = quantum.alloc -> qubit"
  let back := "quantum.cx %q, %r : qubit, qubit -> 5"
  have alone : (instruction env none front .default .empty).answer.isOk = true := by decide +kernel
  obtain ⟨op, hop⟩ : ∃ op, (instruction env none front .default .empty).answer = .ok op := by
    cases h : (instruction env none front .default .empty).answer with
    | error f => rw [h] at alone; cases alone
    | ok op => exact ⟨op, rfl⟩
  obtain ⟨sf, s, hfront, read, hrest, -⟩ := whole_of_answer hop
  have arrow : ∃ x ∈ sf.tokens, x.kind.opensClause = true := by
    obtain ⟨tokens, htokens, found⟩ := exists_tokens front (·.any (·.kind.opensClause)) (by decide +kernel)
    rw [hfront] at htokens
    cases htokens
    exact List.any_eq_true.mp found
  obtain ⟨sb, hback, starts⟩ := exists_tokens back (decide <| StartsLine ·) (by decide +kernel)
  obtain ⟨sameBlock, -, below⟩ := module_joined (fun x k h => Registry.sound_standard.valid_of_kind? h) hfront hback
    Block.wellScoped_empty (eq_ok_of_isOk (by decide +kernel))
    (.cons read (fun _ => arrow) (Parser.closedByClause_nil hrest))
    (of_decide_eq_true starts)
  have fails : isParseError (module env brokenSecond .default .empty).answer = true := by decide +kernel
  obtain ⟨e', he'⟩ := exists_of_isParseError fails
  have joined : front ++ "\n" ++ back = brokenSecond := by decide +kernel
  rw [joined] at sameBlock below
  rw [he'] at below
  generalize ((module env front .default .empty).thenModule env back).answer = answer at below ⊢
  cases below with
  | error category message location =>
    have above : front.toList.count '\n' = 0 ∧ front.toList.length = 27 := by decide +kernel
    rw [Location.below, above.1, above.2] at location
    exact ⟨_, e', rfl, he', message, location, sameBlock⟩
  | failure other => exact absurd rfl (other e')

end Reading

end GateAsm
