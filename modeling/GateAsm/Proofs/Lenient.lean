import GateAsm.Proofs.Joined.Modules
import GateAsm.Proofs.Silent

/-!
# Rotations without an angle

Where angles may be missing, a rotation can have empty parentheses behind its mnemonic. They say nothing: without them
the text is read to the same block where an angle in parentheses has to be given, and each pair of them is what one
warning is about (`Reading.module_lenient`).
-/

namespace GateAsm

/-! ## Tokens without empty parentheses -/

def Registry.rotates (r : Registry) (t : Token) : Bool := decide (t.kind = .word) && (r.kind? t.text).any (·.rotation)

/-- The tokens without the empty parentheses that stand directly behind words for rotations. -/
def withoutEmptyAngles (r : Registry) : List Token → List Token
  | w :: o :: c :: ts =>
    if r.rotates w = true ∧ o.kind = .openParen ∧ c.kind = .closeParen then w :: withoutEmptyAngles r ts
    else w :: withoutEmptyAngles r (o :: c :: ts)
  | ts => ts

def behindEmpty (ts : List Token) : List Token := if (closing? ts).isSome then ts.drop 2 else ts

section
variable {r : Registry} {w : Token} {front ts us : List Token} {k : Kind}

theorem closing?_eq_some_iff {c : Token} :
    closing? ts = some c ↔ ∃ o rest, ts = o :: c :: rest ∧ o.kind = .openParen ∧ c.kind = .closeParen := by
  match ts with
  | [] => simp [closing?]
  | [o] => simp [closing?]
  | o :: c' :: rest =>
    constructor
    · intro h
      rw [closing?] at h
      split at h
      · next hk =>
        obtain rfl := Option.some.inj h
        exact ⟨o, rest, rfl, hk⟩
      · exact absurd h nofun
    · rintro ⟨o, rest, ⟨⟩, hk⟩
      exact if_pos hk

theorem withoutEmptyAngles_cons (h : r.rotates w = true → closing? ts = none) :
    withoutEmptyAngles r (w :: ts) = w :: withoutEmptyAngles r ts := by
  match ts with
  | [] => rfl
  | [o] => rfl
  | o :: c :: ts =>
    refine if_neg ?_
    rintro ⟨hw, hk⟩
    have none := h hw
    rw [closing?, if_pos hk] at none
    cases none

theorem withoutEmptyAngles_of_closing (hw : r.rotates w = true) (hc : (closing? ts).isSome = true) :
    withoutEmptyAngles r (w :: ts) = w :: withoutEmptyAngles r (ts.drop 2) := by
  obtain ⟨c, hc⟩ := Option.isSome_iff_exists.mp hc
  obtain ⟨o, rest, rfl, hk⟩ := closing?_eq_some_iff.mp hc
  exact if_pos ⟨hw, hk⟩

theorem exists_withoutEmptyAngles_cons (r : Registry) (w : Token) (ts : List Token) :
    ∃ us, withoutEmptyAngles r (w :: ts) = w :: us := by
  match ts with
  | [] => exact ⟨_, rfl⟩
  | [o] => exact ⟨_, rfl⟩
  | o :: c :: ts =>
    rw [withoutEmptyAngles]
    split
    · exact ⟨_, rfl⟩
    · exact ⟨_, rfl⟩

theorem rotates_eq_false (h : w.kind ≠ .word) : r.rotates w = false := by simp [Registry.rotates, h]

theorem withoutEmptyAngles_append_of_no_word (h : ∀ t ∈ ts, t.kind ≠ .word) :
    withoutEmptyAngles r (ts ++ us) = ts ++ withoutEmptyAngles r us := by
  induction ts with
  | nil => rfl
  | cons t ts ih =>
    obtain ⟨ht, hts⟩ := List.forall_mem_cons.mp h
    have kept : r.rotates t = true → closing? (ts ++ us) = none := by
      rw [rotates_eq_false ht]
      exact nofun
    rw [List.cons_append, withoutEmptyAngles_cons kept, ih hts, List.cons_append]

theorem withoutEmptyAngles_eq_self (h : emptyAngles ts = []) : withoutEmptyAngles r ts = ts := by
  induction ts with
  | nil => rfl
  | cons w ts ih =>
    rw [emptyAngles, List.append_eq_nil_iff] at h
    obtain ⟨first, others⟩ := h
    have kept : r.rotates w = true → closing? ts = none := by
      intro hw
      have word : w.kind = .word := by
        by_contra hne
        rw [rotates_eq_false hne] at hw
        cases hw
      rw [if_pos word] at first
      simpa using first
    rw [withoutEmptyAngles_cons kept, ih others]

theorem emptyAngles_drop (h : emptyAngles ts = []) (hc : (closing? ts).isSome = true) :
    emptyAngles (ts.drop 2) = [] := by
  obtain ⟨c, hc⟩ := Option.isSome_iff_exists.mp hc
  obtain ⟨o, rest, rfl, -⟩ := closing?_eq_some_iff.mp hc
  rw [emptyAngles, emptyAngles, List.append_eq_nil_iff, List.append_eq_nil_iff] at h
  exact h.2.2

theorem withoutEmptyAngles_append (h : Parser.nextKind us ≠ .openParen ∧ Parser.nextKind us ≠ .closeParen) :
    withoutEmptyAngles r (ts ++ us) = withoutEmptyAngles r ts ++ withoutEmptyAngles r us := by
  fun_induction withoutEmptyAngles r ts with
  | case1 w o c ts hk ih =>
    rw [List.cons_append, List.cons_append, List.cons_append, withoutEmptyAngles, if_pos hk, ih, List.cons_append]
  | case2 w o c ts hk ih =>
    rw [List.cons_append, List.cons_append, List.cons_append, withoutEmptyAngles, if_neg hk]
    exact congrArg (w :: ·) ih
  | case3 ts hts =>
    match ts with
    | [] => rfl
    | [w] => exact withoutEmptyAngles_cons fun _ => closing?_eq_none h.1
    | [w, o] =>
      have open' : closing? ([o] ++ us) = none := closing?_append h
      have first : r.rotates w = true → closing? (o :: us) = none := fun _ => open'
      have second : r.rotates o = true → closing? us = none := fun _ => closing?_eq_none h.1
      exact (withoutEmptyAngles_cons first).trans (congrArg (w :: ·) (withoutEmptyAngles_cons second))
    | w :: o :: c :: ts => exact absurd rfl (hts w o c ts)

theorem withoutEmptyAngles_sublist (r : Registry) (ts : List Token) : (withoutEmptyAngles r ts).Sublist ts := by
  fun_induction withoutEmptyAngles r ts with
  | case1 w o c ts hk ih =>
    exact (ih.trans ((List.sublist_cons_self c ts).trans (List.sublist_cons_self o _))).cons_cons w
  | case2 w o c ts hk ih => exact ih.cons_cons w
  | case3 ts hts => exact .refl ts

theorem withoutEmptyAngles_line {body : List Token} (hfront : ∀ t ∈ front, t.kind ≠ .word) (hw : w.kind = .word)
    (hk : r.kind? w.text = some k) (inner : emptyAngles body = [])
    (hrot : (closing? body).isSome = true → k.rotation = true) :
    withoutEmptyAngles r (front ++ w :: body) = front ++ w :: behindEmpty body := by
  rw [withoutEmptyAngles_append_of_no_word hfront, behindEmpty]
  split
  · next hc =>
    have rotates : r.rotates w = true := by simp [Registry.rotates, hw, hk, hrot hc]
    rw [withoutEmptyAngles_of_closing rotates hc, withoutEmptyAngles_eq_self (emptyAngles_drop inner hc)]
  · next hc =>
    rw [withoutEmptyAngles_cons fun _ => by simpa using hc, withoutEmptyAngles_eq_self inner]

theorem length_behindEmpty (ts : List Token) :
    ts.length = (behindEmpty ts).length + 2 * (closing? ts).toList.length := by
  unfold behindEmpty
  cases hc : closing? ts with
  | none => simp
  | some c =>
    obtain ⟨o, rest, rfl, -⟩ := closing?_eq_some_iff.mp hc
    simp

end

/-! ## Instructions without empty parentheses -/

namespace AngleSyntax

def strict : AngleSyntax → AngleSyntax
  | empty => absent
  | w => w

theorem angle?_strict {w : AngleSyntax} {allow : Bool} {a : AngleOf String} (h : w.angle? allow = some a) :
    w.strict.angle? false = some a := by
  cases w with
  | empty =>
    cases allow with
    | false => cases h
    | true => exact h
  | absent => exact h
  | float d => exact h
  | int d => exact h
  | reference n => exact h

theorem angle?_of_false {w : AngleSyntax} {allow : Bool} {a : AngleOf String} (h : w.angle? false = some a) :
    w.angle? allow = some a := by
  cases w with
  | empty => cases h
  | absent => exact h
  | float d => exact h
  | int d => exact h
  | reference n => exact h

end AngleSyntax

namespace BodySyntax

def strict : BodySyntax → BodySyntax
  | generic g => generic { g with angle := g.angle.strict }
  | call g => call g

variable {registry : Registry} {env : ParserEnv} {k : Kind} {m : Statement} {g : BodySyntax}

theorem States.strict (h : g.States env k m) : g.strict.States ⟨env.registry, false⟩ k m := by
  cases g with
  | call g => exact h
  | generic g =>
    obtain ⟨hcall, rotation, slots, least, ⟨a, fs, angle, fillers, content⟩, tags, own, types, count, results⟩ := h
    refine ⟨hcall, fun hr => ?_, slots, least, ⟨a, fs, AngleSyntax.angle?_strict angle, fillers, content⟩,
      tags, own, types, count, results⟩
    rw [show g.angle = .absent from rotation hr]
    rfl

theorem States.lenient (h : g.States ⟨registry, false⟩ k m) : g.States ⟨registry, true⟩ k m := by
  cases g with
  | call g => exact h
  | generic g =>
    obtain ⟨hcall, rotation, slots, least, ⟨a, fs, angle, fillers, content⟩, tags, own, types, count, results⟩ := h
    exact ⟨hcall, rotation, slots, least, ⟨a, fs, AngleSyntax.angle?_of_false angle, fillers, content⟩,
      tags, own, types, count, results⟩

/-- Only an angle could be put where the parentheses were. -/
theorem openers_strict : ∀ j ∈ g.strict.openers k, j ∈ g.openers k ∨ j = .openParen := by
  cases g with
  | call g => exact nofun
  | generic g =>
    obtain ⟨angle, operands, tags, types, results⟩ := g
    intro j hj
    cases results with
    | cons t ts => exact .inl hj
    | nil =>
      cases types with
      | cons t ts => exact .inl hj
      | nil =>
        cases tags with
        | some es => exact .inl hj
        | none =>
          rcases List.mem_append.mp hj with hj | hj
          · exact .inl (List.mem_append_left _ hj)
          · split at hj
            · exact .inr (List.mem_singleton.mp hj)
            · cases hj

theorem words_behindEmpty {ts : List Token} (h : ts.map Token.word = g.words) :
    (behindEmpty ts).map Token.word = g.strict.words := by
  have kept : closing? ts = none → g.strict = g → (behindEmpty ts).map Token.word = g.strict.words := by
    intro none same
    rw [behindEmpty, none, same, ← h]
    rfl
  have given : ∀ v vs, v.kind ≠ .closeParen → ts.map Token.word = .mark .openParen :: v :: vs → closing? ts = none := by
    intro v vs hv hts
    obtain ⟨o, us, rfl, -, hus⟩ := List.map_eq_cons_iff.mp hts
    obtain ⟨c, us, rfl, rfl, -⟩ := List.map_eq_cons_iff.mp hus
    exact if_neg fun hk => hv hk.2
  cases g with
  | call g =>
    obtain ⟨n, ws, hws, -⟩ := g.noParen_words
    obtain ⟨a, us, rfl, ha, -⟩ := List.map_eq_cons_iff.mp (h.trans hws)
    refine kept (closing?_eq_none ?_) rfl
    rw [Parser.nextKind_cons, ((Token.word_eq_iff rfl).mp ha).1]
    exact nofun
  | generic g =>
    obtain ⟨ws, hws, noParen, rfl⟩ := g.words_eq
    obtain ⟨angle, operands, tags, types, results⟩ := g
    cases angle with
    | absent => exact kept (noParen.closing? (h.trans hws)) rfl
    | empty =>
      obtain ⟨o, us, rfl, ho, hus⟩ := List.map_eq_cons_iff.mp (h.trans hws)
      obtain ⟨c, us, rfl, hc, hwords⟩ := List.map_eq_cons_iff.mp hus
      have closed : closing? (o :: c :: us) = some c :=
        if_pos ⟨(Token.word_eq_mark_iff rfl).mp ho, (Token.word_eq_mark_iff rfl).mp hc⟩
      rw [behindEmpty, closed]
      exact hwords
    | float d => exact kept (given _ _ (by exact nofun) (h.trans hws)) rfl
    | int d => exact kept (given _ _ (by exact nofun) (h.trans hws)) rfl
    | reference n => exact kept (given _ _ (by exact nofun) (h.trans hws)) rfl

end BodySyntax

namespace LineSyntax

def strict (x : LineSyntax) : LineSyntax := { x with body := x.body.strict }

theorem firstKind_words (x : LineSyntax) (k : TokenKind) :
    firstKind x.words k = .valueName ∨ firstKind x.words k = .word := by
  rcases Parser.nextKind_nameWords x.names with none | ⟨n, ws, some⟩
  · rw [words, none]
    exact .inr rfl
  · rw [words, some]
    exact .inl rfl

end LineSyntax

theorem append_word_inj {as bs cs ds : List Word} {a c : Word} (has : ∀ w ∈ as, w.kind ≠ .word) (ha : a.kind = .word)
    (hcs : ∀ w ∈ cs, w.kind ≠ .word) (hc : c.kind = .word) (h : as ++ a :: bs = cs ++ c :: ds) :
    as = cs ∧ a = c ∧ bs = ds := by
  induction as generalizing cs with
  | nil =>
    cases cs with
    | nil => exact ⟨rfl, List.cons.inj h⟩
    | cons x cs =>
      obtain ⟨rfl, -⟩ := List.cons.inj h
      exact absurd ha (hcs a List.mem_cons_self)
  | cons x as ih =>
    cases cs with
    | nil =>
      obtain ⟨rfl, -⟩ := List.cons.inj h
      exact absurd hc (has x List.mem_cons_self)
    | cons y cs =>
      obtain ⟨rfl, others⟩ := List.cons.inj h
      obtain ⟨rfl, rest⟩ := ih (List.forall_mem_cons.mp has).2 (List.forall_mem_cons.mp hcs).2 others
      exact ⟨rfl, rest⟩

namespace Parser

variable {env : ParserEnv} {s t u : ParserState} {used used' : List Token} {xs xs' : List (LineSyntax × Line)}
  {ws ws' : List Diagnostic}

/-- The tokens between two states are, without their empty parentheses, instructions of which each angle is given; each
pair of parentheses was warned about. -/
structure Reduces (env : ParserEnv) (s t : ParserState) (used : List Token) (xs : List (LineSyntax × Line))
    (ws : List Diagnostic) : Prop where
  tokens : s.rest = used ++ t.rest
  first : nextKind used ≠ .openParen ∧ nextKind used ≠ .closeParen
  words : (withoutEmptyAngles env.registry used).map Token.word = xs.flatMap (·.1.words)
  states : ∀ x ∈ xs, x.1.States ⟨env.registry, false⟩ none x.2
  warned : t.diagnostics = s.diagnostics ++ ws
  severity : ∀ d ∈ ws, d.severity = .warning
  count : used.length = (withoutEmptyAngles env.registry used).length + 2 * ws.length
  strict : env.allowMissingAngle = false → ws = []

theorem Reduces.refl (env : ParserEnv) (s : ParserState) : Reduces env s s [] [] [] where
  tokens := rfl
  first := ⟨nofun, nofun⟩
  words := rfl
  states := List.forall_mem_nil _
  warned := (List.append_nil _).symm
  severity := List.forall_mem_nil _
  count := rfl
  strict _ := rfl

theorem Reduces.append (h : Reduces env s u used xs ws) (h' : Reduces env u t used' xs' ws') :
    Reduces env s t (used ++ used') (xs ++ xs') (ws ++ ws') where
  tokens := by rw [h.tokens, h'.tokens, List.append_assoc]
  first := by
    cases used with
    | nil => exact h'.first
    | cons x used => exact h.first
  words := by rw [withoutEmptyAngles_append h'.first, List.map_append, h.words, h'.words, List.flatMap_append]
  states := List.forall_mem_append.mpr ⟨h.states, h'.states⟩
  warned := by rw [h'.warned, h.warned, List.append_assoc]
  severity := List.forall_mem_append.mpr ⟨h.severity, h'.severity⟩
  count := by
    rw [withoutEmptyAngles_append h'.first]
    have := h.count
    have := h'.count
    simp only [List.length_append]
    omega
  strict forbidden := by rw [h.strict forbidden, h'.strict forbidden]; rfl

theorem Reduces.next (h : Reduces env s t used xs ws) :
    nextKind s.rest = firstKind (xs.flatMap (·.1.words)) (nextKind t.rest) := by
  rw [h.tokens, ← h.words]
  cases used with
  | nil => rfl
  | cons x used =>
    obtain ⟨us, hus⟩ := exists_withoutEmptyAngles_cons env.registry x used
    rw [hus]
    rfl

/-- An instruction that is read comes to the same line without the empty parentheses behind its mnemonic. -/
theorem instruction_reduces {n : Nat} (hk : ∀ x k, env.registry.kind? x = some k → k.Valid) (hb : s.block.WellScoped)
    (hv : VisibleTokens s.rest) (h : Yields (instruction env none) s n t) :
    ∃ x used ws, Reduces env s t used [x] ws ∧
      (nextKind t.rest ≠ .openParen → nextKind t.rest ∉ x.1.body.openers x.2.kind) ∧
      x.2.Runs s.context s.block t.block ∧ t.context = x.2.statement.context s.context := by
  have kinds : ∀ x k, KindFor env.registry none x k → k.Valid := hk
  obtain ⟨x, l, ⟨used, hused, hwords⟩, hopen, hx, hrun, hcontext, -⟩ := instruction_sound kinds hb hv h
  obtain ⟨front, w, body, k, htokens, hfront, hw, hkind, inner, warned, closed⟩ :=
    diagnostics_of_instruction kinds hb hv h
  obtain rfl : used = front ++ w :: body := by
    refine List.append_cancel_right (hused.symm.trans ?_)
    rw [htokens, List.append_assoc]
    rfl
  have noWord : ∀ v ∈ front.map Token.word, v.kind ≠ .word := by
    intro v hv
    obtain ⟨y, hy, rfl⟩ := List.mem_map.mp hv
    exact hfront y hy
  rw [List.map_append, List.map_cons] at hwords
  -- both descriptions of the tokens have the mnemonic as their first word
  obtain ⟨hnames, hmnemonic, hbody⟩ := append_word_inj noWord hw (kind_nameWords x.names) rfl hwords
  obtain rfl : k = l.kind := by
    have named : w.text = x.mnemonic := ((Token.word_eq_iff rfl).mp hmnemonic).2
    exact Option.some.inj (hkind.symm.trans (named ▸ hx.kind))
  have cut := withoutEmptyAngles_line (r := env.registry) hfront hw hkind inner fun hc => (closed hc).1
  refine ⟨(x.strict, l), front ++ w :: body, _, ⟨hused, ?_, ?_, ?_, warned, ?_, ?_, ?_⟩, ?_, hrun, hcontext⟩
  · have splits : Splits x.words (front ++ w :: body) [] :=
      ⟨_, (List.append_nil _).symm, by rw [List.map_append, List.map_cons]; exact hwords⟩
    rw [splits.nextKind]
    rcases x.firstKind_words (nextKind []) with hfirst | hfirst
    · rw [hfirst]; exact ⟨nofun, nofun⟩
    · rw [hfirst]; exact ⟨nofun, nofun⟩
  · rw [cut, List.map_append, List.map_cons, BodySyntax.words_behindEmpty hbody, hnames, hmnemonic]
    exact (List.append_nil x.strict.words).symm
  · intro y hy
    obtain rfl := List.mem_singleton.mp hy
    exact ⟨hx.names, hx.kind, hx.body.strict⟩
  · intro d hd
    obtain ⟨c, -, rfl⟩ := List.mem_map.mp hd
    rfl
  · rw [cut, List.length_map]
    have := length_behindEmpty body
    simp only [List.length_append, List.length_cons]
    omega
  · intro forbidden
    cases hc : closing? body with
    | none => rfl
    | some c => exact absurd ((closed (by rw [hc]; rfl)).2.symm.trans forbidden) nofun
  · intro hn hj
    rcases BodySyntax.openers_strict _ hj with hj | hj
    · exact hopen hj
    · exact hn hj

/-- **Instructions that are read** come to the same lines without their empty parentheses, and each line ends where the
next one starts. -/
theorem instructions_reduces {fuel : Nat} (hk : ∀ x k, env.registry.kind? x = some k → k.Valid)
    (hf : s.rest.length ≤ fuel) (hb : s.block.WellScoped) (hv : VisibleTokens s.rest)
    (h : Yields (instructions env fuel) s () t) :
    ∃ xs used ws, Reduces env s t used xs ws ∧ nextKind t.rest = .endOfText ∧ Apart xs ∧
      Line.RunAll (xs.map (·.2)) s.context s.block t.block := by
  induction fuel generalizing s with
  | zero =>
    obtain ⟨-, rfl⟩ := yields_pure.mp h
    have nothing : t.rest = [] := List.length_eq_zero_iff.mp (by omega)
    exact ⟨[], [], [], .refl env t, by rw [nothing]; rfl, trivial, rfl⟩
  | succ fuel ih =>
    -- an instruction, and what is behind it with the block that it left
    rw [instructions, yields_atEnd_bind, yields_ite] at h
    rcases h with ⟨hend, h⟩ | ⟨-, h⟩
    · obtain ⟨-, rfl⟩ := yields_pure.mp h
      exact ⟨[], [], [], .refl env t, by simpa using hend, trivial, rfl⟩
    · obtain ⟨n, u, hone, hmore⟩ := yields_bind.mp h
      obtain ⟨suffix, shorter⟩ := instruction_takes hone
      obtain ⟨x, used, ws, first, hopen, hrun, hcontext⟩ := instruction_reduces hk hb hv hone
      obtain ⟨xs, used', ws', others, hend, hapart, hall⟩ :=
        ih (by omega) (hrun.wellScoped hb) (hv.sublist suffix.sublist) hmore
      refine ⟨x :: xs, used ++ used', ws ++ ws', first.append others, hend, ⟨?_, hapart⟩, u.block, hrun,
        hcontext ▸ hall⟩
      have next := others.next
      rw [hend] at next
      rw [← next]
      refine hopen ?_
      rw [others.tokens]
      cases used' with
      | nil => rw [List.nil_append, hend]; decide
      | cons y used' => exact others.first.1

theorem VisibleTokens.of_words {ts us : List Token} (hv : VisibleTokens ts)
    (h : ∀ w ∈ us.map Token.word, w ∈ ts.map Token.word) : VisibleTokens us := by
  intro u hu hk
  obtain ⟨y, hy, same⟩ := List.mem_map.mp (h u.word (List.mem_map_of_mem hu))
  have word : u.word = ⟨.valueName, u.text⟩ := (Token.word_eq_iff rfl).mpr ⟨hk, rfl⟩
  obtain ⟨hky, text⟩ := (Token.word_eq_iff rfl).mp (same.trans word)
  exact text ▸ hv y hy hky

end Parser

/-! ## Texts -/

namespace Reading

variable {env : ParserEnv} {registry : Registry} {text : String} {c : TypeContext} {b b' : Block}
  {tokens cut : TokenStream} {xs : List (LineSyntax × Line)}

/-- What tokens come to as a module. -/
def ofTokens (env : ParserEnv) (tokens : TokenStream) (c : TypeContext) (b : Block) : Reading Unit :=
  ofOutcome (Parser.module env (.start tokens c b))

theorem module_eq_ofTokens (h : TokenStream.ofText text = .ok tokens) : module env text c b = ofTokens env tokens c b :=
  module_of_ofText h env c b

theorem reduces_of_answer (hk : ∀ x k, env.registry.kind? x = some k → k.Valid) (hb : b.WellScoped)
    (h : (module env text c b).answer = .ok ()) :
    ∃ tokens xs t, TokenStream.ofText text = .ok tokens ∧
      Parser.Reduces env (.start tokens c b) t tokens.tokens xs (module env text c b).diagnostics ∧ Parser.Apart xs ∧
      Line.RunAll (xs.map (·.2)) c b (module env text c b).block := by
  cases htokens : TokenStream.ofText text with
  | error stray =>
    unfold module run at h
    rw [htokens] at h
    cases h
  | ok tokens =>
    rw [module_of_ofText htokens] at h ⊢
    cases hread : Parser.instructions env tokens.tokens.length (.start tokens c b) with
    | mk answer t =>
      rw [hread] at h
      obtain rfl : answer = .ok () := h
      have visible := visible_of_spelled (lexes_of_ofText htokens).2
      obtain ⟨xs, used, ws, reduces, hend, hapart, hall⟩ :=
        Parser.instructions_reduces (s := .start tokens c b) hk (Nat.le_refl _) hb visible hread
      have whole : tokens.tokens = used ++ t.rest := reduces.tokens
      have nothing : t.rest = [] := eq_nil_of_nextKind htokens ⟨used, whole.symm⟩ hend
      rw [nothing, List.append_nil] at whole
      have warned : t.diagnostics = ws := reduces.warned
      subst whole warned
      exact ⟨tokens, xs, t, rfl, reduces, hapart, hall⟩

/-- Tokens that are written as instructions are read, if the lines can run and each ends where the next one starts. -/
theorem ofTokens_of_lines (hk : ∀ x k, env.registry.kind? x = some k → k.Valid) (hb : b.WellScoped)
    (hv : Parser.VisibleTokens cut.tokens) (hwords : cut.tokens.map Token.word = xs.flatMap (·.1.words))
    (hx : ∀ x ∈ xs, x.1.States env none x.2) (hapart : Parser.Apart xs) (hrun : Line.RunAll (xs.map (·.2)) c b b') :
    (ofTokens env cut c b).answer = .ok () ∧ (ofTokens env cut c b).block = b' := by
  have splits : Splits (xs.flatMap (·.1.words)) cut.tokens [] := ⟨_, (List.append_nil _).symm, hwords⟩
  obtain ⟨t, read, -, rfl⟩ := Parser.instructions_complete (s := .start cut c b) xs (Nat.le_refl _) hb hv splits
    (fun x hmem => hk _ _ (hx x hmem).kind) hx hapart hrun
  have outcome : ofTokens env cut c b = ofOutcome (.ok (), t) := congrArg ofOutcome read
  rw [outcome]
  exact ⟨rfl, rfl⟩

/-- **Reading leniently is a conservative extension.** A text that is read where an angle in parentheses has to be given
is read to the same block where it may be missing, and nothing is reported by either. A text that is read where angles
may be missing is read to the same block without the empty parentheses behind words for rotations, where angles have to
be given; nothing but warnings is reported, and one for each pair of parentheses that is left out. -/
theorem module_lenient (hk : ∀ x k, registry.kind? x = some k → k.Valid) (hb : b.WellScoped) :
    ((module ⟨registry, false⟩ text c b).answer = .ok () →
      (module ⟨registry, true⟩ text c b).answer = .ok () ∧
      (module ⟨registry, true⟩ text c b).block = (module ⟨registry, false⟩ text c b).block ∧
      (module ⟨registry, true⟩ text c b).diagnostics = [] ∧ (module ⟨registry, false⟩ text c b).diagnostics = []) ∧
    ((module ⟨registry, true⟩ text c b).answer = .ok () →
      ∃ tokens, TokenStream.ofText text = .ok tokens ∧
        (∀ cut : TokenStream, cut.tokens.map Token.word = (withoutEmptyAngles registry tokens.tokens).map Token.word →
          (ofTokens ⟨registry, false⟩ cut c b).answer = .ok () ∧
          (ofTokens ⟨registry, false⟩ cut c b).block = (module ⟨registry, true⟩ text c b).block) ∧
        (∀ d ∈ (module ⟨registry, true⟩ text c b).diagnostics, d.severity = .warning) ∧
        tokens.tokens.length = (withoutEmptyAngles registry tokens.tokens).length +
          2 * (module ⟨registry, true⟩ text c b).diagnostics.length) := by
  constructor
  · intro h
    obtain ⟨tokens, xs, t, htokens, reduces, hapart, hall⟩ := reduces_of_answer hk hb h
    have silent := reduces.strict rfl
    -- no warning, so there are no empty parentheses
    have same : withoutEmptyAngles registry tokens.tokens = tokens.tokens := by
      refine (withoutEmptyAngles_sublist registry tokens.tokens).eq_of_length ?_
      have := reduces.count
      rw [silent] at this
      exact this.symm
    have visible := visible_of_spelled (lexes_of_ofText htokens).2
    have words : tokens.tokens.map Token.word = xs.flatMap (·.1.words) := by
      rw [← reduces.words, show withoutEmptyAngles _ _ = _ from same]
    have lenient : ∀ x ∈ xs, x.1.States ⟨registry, true⟩ none x.2 := fun x hx =>
      ⟨(reduces.states x hx).names, (reduces.states x hx).kind, (reduces.states x hx).body.lenient⟩
    have read : (ofTokens ⟨registry, true⟩ tokens c b).answer = .ok () ∧
        (ofTokens ⟨registry, true⟩ tokens c b).block = _ :=
      ofTokens_of_lines hk hb visible words lenient hapart hall
    rw [← module_eq_ofTokens htokens] at read
    obtain ⟨answer, block⟩ := read
    refine ⟨answer, block, ?_, silent⟩
    obtain ⟨tokens', xs', t', htokens', reduces', -, -⟩ := reduces_of_answer hk hb answer
    obtain rfl : tokens = tokens' := Except.ok.inj (htokens.symm.trans htokens')
    have count := reduces'.count
    rw [show withoutEmptyAngles _ _ = _ from same] at count
    exact List.eq_nil_of_length_eq_zero (by omega)
  · intro h
    obtain ⟨tokens, xs, t, htokens, reduces, hapart, hall⟩ := reduces_of_answer hk hb h
    refine ⟨tokens, htokens, fun cut hcut => ?_, reduces.severity, reduces.count⟩
    have visible : Parser.VisibleTokens cut.tokens := by
      refine (visible_of_spelled (lexes_of_ofText htokens).2).of_words fun w hw => ?_
      rw [hcut] at hw
      exact ((withoutEmptyAngles_sublist registry tokens.tokens).map _).subset hw
    exact ofTokens_of_lines hk hb visible (hcut.trans reduces.words) reduces.states hapart hall

def withoutParentheses : String := "quantum.rx %q : qubit -> qubit"

/-- The rotation with empty parentheses is read as the one without them, and one warning is about them. -/
theorem module_lenient_angleless :
    (module ⟨.standard, true⟩ angleless .default .empty).answer = .ok () ∧
      (module ⟨.standard, false⟩ withoutParentheses .default .empty).answer = .ok () ∧
      (module ⟨.standard, false⟩ withoutParentheses .default .empty).block =
        (module ⟨.standard, true⟩ angleless .default .empty).block ∧
      (module ⟨.standard, true⟩ angleless .default .empty).diagnostics.length = 1 ∧
      (module ⟨.standard, true⟩ withoutParentheses .default .empty).diagnostics = [] := by
  have kinds : ∀ x k, Registry.standard.kind? x = some k → k.Valid :=
    fun x k h => Registry.sound_standard.valid_of_kind? h
  have read : (module ⟨.standard, true⟩ angleless .default .empty).answer = .ok () := eq_ok_of_isOk (by decide +kernel)
  obtain ⟨tokens, htokens, cut, -, count⟩ := (module_lenient kinds Block.wellScoped_empty).2 read
  obtain ⟨left, hleft, -⟩ := exists_tokens withoutParentheses (fun _ => true) (by decide +kernel)
  have words : ((TokenStream.ofText withoutParentheses).toOption.map (·.tokens.map Token.word)) =
      (TokenStream.ofText angleless).toOption.map fun s => (withoutEmptyAngles .standard s.tokens).map Token.word := by
    decide +kernel
  have lengths : (TokenStream.ofText angleless).toOption.map (fun s =>
      (s.tokens.length, (withoutEmptyAngles .standard s.tokens).length)) = some (8, 6) := by decide +kernel
  rw [hleft, htokens] at words
  rw [htokens] at lengths
  obtain ⟨answer, block⟩ := cut left (Option.some.inj words)
  rw [← module_eq_ofTokens hleft] at answer block
  obtain ⟨-, -, silent, -⟩ := (module_lenient kinds Block.wellScoped_empty).1 answer
  obtain ⟨whole, shorter⟩ := Prod.mk.inj (Option.some.inj lengths)
  refine ⟨read, answer, block, ?_, silent⟩
  omega

end Reading

end GateAsm
