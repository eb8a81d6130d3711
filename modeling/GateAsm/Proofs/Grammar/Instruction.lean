import GateAsm.Proofs.Grammar.Call
import GateAsm.Proofs.Line

/-!
# The grammar of instructions

An instruction is written as the names of its results with an equal sign behind them, its mnemonic, and
the rest in the form of its kind. The parser reads what is written so and nothing else, and the block is
the one in which the line has run.
-/

namespace GateAsm

inductive BodySyntax
  | generic (g : GroupSyntax)
  | call (g : CallSyntax)

structure LineSyntax where
  names : List String
  mnemonic : String
  body : BodySyntax

namespace BodySyntax

def words : BodySyntax → List Word
  | generic g => g.words
  | call g => g.words

def openers (k : Kind) : BodySyntax → List TokenKind
  | generic g => g.openers k
  | call _ => []

def States (env : ParserEnv) (k : Kind) (m : Statement) : BodySyntax → Prop
  | generic g => k.callForm = false ∧ g.States env k m
  | call g => k.callForm = true ∧ g.States env.registry k m

end BodySyntax

/-- The instruction that a mnemonic stands for is of the kind: the expected one, or the registered one. -/
def KindFor (registry : Registry) (expected : Option Kind) (mnemonic : String) (k : Kind) : Prop :=
  match expected with
  | some k' => mnemonic = k'.name ∧ k = k'
  | none => registry.kind? mnemonic = some k

namespace LineSyntax

def nameWords : List String → List Word
  | [] => []
  | ns => listed (ns.map fun n => [⟨.valueName, n⟩]) ++ [.mark .equal]

def words (x : LineSyntax) : List Word := nameWords x.names ++ (⟨.word, x.mnemonic⟩ :: x.body.words)

theorem words_ne_nil (x : LineSyntax) : x.words ≠ [] :=
  List.append_ne_nil_of_right_ne_nil _ (List.cons_ne_nil _ _)

structure States (env : ParserEnv) (expected : Option Kind) (x : LineSyntax) (l : Line) : Prop where
  names : x.names = l.names
  kind : KindFor env.registry expected x.mnemonic l.kind
  body : x.body.States env l.kind l.statement

end LineSyntax

/-! ## Statements of a text -/

theorem GroupSyntax.States.lawful {env : ParserEnv} {k : Kind} {g : GroupSyntax} {m : Statement}
    (h : g.States env k m) (hcall : k.callForm = false) : m.Lawful k := by
  obtain ⟨a, fs, ha, hfs, hc⟩ := h.content
  refine ⟨?_, h.own, h.count⟩
  rw [hc]
  refine ⟨hcall, fun hr => ?_, fillSlots_of_fillers? h.slots hfs, ?_⟩
  · rw [h.rotation hr] at ha
    exact (Option.some.inj ha).symm
  · rw [OperandSyntax.length_fillers? hfs]
    exact h.least

theorem CallSyntax.States.lawful {r : Registry} {k : Kind} {g : CallSyntax} {m : Statement}
    (h : g.States r k m) (hcall : k.callForm = true) : m.Lawful k := by
  obtain ⟨n, fs, -, hfs, hc⟩ := h.content
  have small := h.small
  refine ⟨?_, h.own, h.count⟩
  rw [hc] at small ⊢
  exact ⟨hcall, Parser.legal_of_fillers? hfs, small⟩

theorem BodySyntax.States.lawful {env : ParserEnv} {k : Kind} {g : BodySyntax} {m : Statement}
    (h : g.States env k m) : m.Lawful k := by
  cases g with
  | generic g => exact h.2.lawful h.1
  | call g => exact h.2.lawful h.1

theorem BodySyntax.States.result {env : ParserEnv} {k : Kind} {g : BodySyntax} {m : Statement}
    (h : g.States env k m) (hcall : k.callForm = true) : m.results.length = 1 := by
  cases g with
  | generic g =>
    rw [h.1] at hcall
    cases hcall
  | call g =>
    obtain ⟨ty, -, hres⟩ := h.2.results
    rw [hres]
    rfl

namespace Parser

variable {env : ParserEnv} {kind : Kind} {s t : ParserState}

/-! ## Result names -/

theorem moreResultNames_sound {fuel : Nat} {ts : List Token} (hf : s.rest.length ≤ fuel)
    (h : Yields (moreResultNames fuel) s ts t) :
    ∃ rest, Splits ((ts.map (·.text)).flatMap fun n => [.mark .comma, ⟨.valueName, n⟩]) s.rest rest ∧
      t = s.facing rest := by
  induction fuel generalizing s ts with
  | zero =>
    obtain ⟨rfl, rfl⟩ := yields_pure.mp h
    exact ⟨t.rest, Splits.nil_iff.mpr rfl, rfl⟩
  | succ fuel ih =>
    rcases (yields_unlessMark rfl (by decide)).mp h with ⟨us, hc, h⟩ | ⟨-, h⟩
    · obtain ⟨x, u, hx, h⟩ := yields_bind.mp h
      obtain ⟨vs, hr, hk, rfl⟩ := (yields_expectAs (by decide)).mp hx
      obtain ⟨others, u, hothers, h⟩ := yields_bind.mp h
      obtain ⟨rfl, rfl⟩ := yields_pure.mp h
      have hv : Splits [⟨.valueName, x.text⟩] us vs := (splits_single rfl).mpr ⟨x, hr, hk, rfl⟩
      have hlen : vs.length ≤ fuel := (hc.append hv).rest_le (List.cons_ne_nil _ _) hf
      obtain ⟨rest, hs, rfl⟩ := ih hlen hothers
      exact ⟨rest, hc.append (hv.append hs), rfl⟩
    · obtain ⟨rfl, rfl⟩ := yields_pure.mp h
      exact ⟨t.rest, Splits.nil_iff.mpr rfl, rfl⟩

theorem moreResultNames_complete {fuel : Nat} {ns : List String} {rest : List Token} (hf : s.rest.length ≤ fuel)
    (hs : Splits (ns.flatMap fun n => [.mark .comma, ⟨.valueName, n⟩]) s.rest rest)
    (hend : nextKind rest = .equal) :
    ∃ ts, Yields (moreResultNames fuel) s ts (s.facing rest) ∧ ts.map (·.text) = ns := by
  induction fuel generalizing s ns with
  | zero =>
    have hr : s.rest = [] := List.length_eq_zero_iff.mp (by omega)
    have := hs.nextKind
    rw [hend, hr] at this
    cases ns <;> simp at this
  | succ fuel ih =>
    cases ns with
    | nil =>
      obtain rfl := Splits.nil_iff.mp hs
      refine ⟨[], (yields_unlessMark rfl (by decide)).mpr (.inr ⟨?_, yields_pure.mpr ⟨rfl, rfl⟩⟩), rfl⟩
      rw [hend]; exact nofun
    | cons n ns =>
      obtain ⟨us, hc, htail⟩ := Splits.first_iff.mp hs
      obtain ⟨vs, hv, hmore⟩ := Splits.append_iff.mp htail
      obtain ⟨x, hr, hk, hx⟩ := (splits_single rfl).mp hv
      have hlen : vs.length ≤ fuel := (hc.append hv).rest_le (List.cons_ne_nil _ _) hf
      obtain ⟨ts, hts, hnames⟩ := ih (s := (s.facing us).facing vs) hlen hmore
      refine ⟨x :: ts, (yields_unlessMark rfl (by decide)).mpr (.inl ⟨us, hc, yields_bind.mpr ⟨x, _,
        (yields_expectAs (by decide)).mpr ⟨vs, hr, hk, rfl⟩, ?_⟩⟩), by rw [List.map_cons, hx, hnames]⟩
      exact yields_bind.mpr ⟨ts, _, hts, yields_pure.mpr ⟨rfl, rfl⟩⟩

theorem listed_names (n : String) (ns : List String) :
    listed ((n :: ns).map fun n => [(⟨.valueName, n⟩ : Word)]) =
      ⟨.valueName, n⟩ :: ns.flatMap fun n => [.mark .comma, ⟨.valueName, n⟩] := by
  simp [listed_cons, List.flatMap_map]

theorem resultNames_sound {ts : List Token} (h : Yields resultNames s ts t) :
    ∃ rest, Splits (LineSyntax.nameWords (ts.map (·.text))) s.rest rest ∧ t = s.facing rest := by
  obtain ⟨o, u, ho, hrest⟩ := yields_bind.mp h
  rcases (yields_optional (by decide)).mp ho with ⟨x, us, hr, hk, rfl, rfl⟩ | ⟨-, rfl, rfl⟩
  · rw [yields_get_bind] at hrest
    obtain ⟨others, u, hothers, hrest⟩ := yields_bind.mp hrest
    obtain ⟨vs, hs, rfl⟩ := moreResultNames_sound (Nat.le_refl _) hothers
    obtain ⟨rest, he, hrest⟩ := (yields_mark rfl (by decide)).mp hrest
    obtain ⟨rfl, rfl⟩ := yields_pure.mp hrest
    have hx : Splits [⟨.valueName, x.text⟩] s.rest us := (splits_single rfl).mpr ⟨x, hr, hk, rfl⟩
    refine ⟨rest, ?_, rfl⟩
    have := hx.append (hs.append he)
    simpa [LineSyntax.nameWords, listed_cons, List.flatMap_map] using this
  · obtain ⟨rfl, rfl⟩ := yields_pure.mp hrest
    exact ⟨t.rest, Splits.nil_iff.mpr rfl, rfl⟩

theorem resultNames_complete {ns : List String} {rest : List Token}
    (hs : Splits (LineSyntax.nameWords ns) s.rest rest) (hend : nextKind rest = .word) :
    ∃ ts, Yields resultNames s ts (s.facing rest) ∧ ts.map (·.text) = ns := by
  cases ns with
  | nil =>
    obtain rfl := Splits.nil_iff.mp hs
    refine ⟨[], yields_bind.mpr ⟨none, s, (yields_optional (by decide)).mpr (.inr ⟨?_, rfl, rfl⟩),
      yields_pure.mpr ⟨rfl, rfl⟩⟩, rfl⟩
    rw [hend]; exact nofun
  | cons n ns =>
    have hsplit : Splits ([⟨.valueName, n⟩] ++ ((ns.flatMap fun n => [.mark .comma, ⟨.valueName, n⟩]) ++
        [.mark .equal])) s.rest rest := by
      simpa [LineSyntax.nameWords, listed_cons, List.flatMap_map] using hs
    obtain ⟨us, hv, htail⟩ := Splits.append_iff.mp hsplit
    obtain ⟨vs, hmore, he⟩ := Splits.append_iff.mp htail
    obtain ⟨x, hr, hk, hx⟩ := (splits_single rfl).mp hv
    obtain ⟨ts, hts, hnames⟩ :=
      moreResultNames_complete (s := s.facing us) (Nat.le_refl _) hmore (he.nextKind_eq rfl)
    refine ⟨x :: ts, yields_bind.mpr ⟨some x, _, (yields_optional (by decide)).mpr (.inl ⟨x, us, hr, hk, rfl, rfl⟩),
      yields_get_bind.mpr (yields_bind.mpr ⟨ts, _, hts, (yields_mark rfl (by decide)).mpr ⟨rest, he, ?_⟩⟩)⟩,
      by rw [List.map_cons, hx, hnames]⟩
    exact yields_pure.mpr ⟨rfl, rfl⟩

theorem yields_checkResultCount {n : Nat} {ts : List Token} {x : Unit} :
    Yields (checkResultCount n ts) s x t ↔ (ts = [] ∨ ts.length = n) ∧ t = s := by
  cases ts with
  | nil => simp [checkResultCount]
  | cons y ts => simp [checkResultCount]

theorem yields_checkResultNames {seen : List String} {ts : List Token} {x : Unit} :
    Yields (checkResultNames seen ts) s x t ↔
      (ts.map (·.text)).Nodup ∧ (∀ n ∈ ts.map (·.text), n ∉ seen ∧ s.block.lookup n = none) ∧ t = s := by
  induction ts generalizing seen with
  | nil => simp [checkResultNames]
  | cons y ts ih =>
    simp only [checkResultNames, yields_get_bind, yields_require_bind, ih, List.map_cons, List.nodup_cons,
      List.mem_cons, forall_eq_or_imp, not_or]
    simp only [Bool.not_eq_true', Bool.or_eq_false_iff, List.contains_eq_mem, decide_eq_false_iff_not,
      Option.isSome_eq_false_iff, Option.isNone_iff_eq_none]
    constructor
    · rintro ⟨⟨hseen, hfree⟩, hn, hall, rfl⟩
      exact ⟨⟨fun hy => (hall _ hy).1.1 rfl, hn⟩, ⟨⟨hseen, hfree⟩, fun n h => ⟨(hall n h).1.2, (hall n h).2⟩⟩, rfl⟩
    · rintro ⟨⟨hy, hn⟩, ⟨⟨hseen, hfree⟩, hall⟩, rfl⟩
      exact ⟨⟨hseen, hfree⟩, hn, fun n h => ⟨⟨fun he => hy (he ▸ h), (hall n h).1⟩, (hall n h).2⟩, rfl⟩

/-! ## Instructions -/

theorem yields_mnemonic {expected : Option Kind} {k : Kind} :
    Yields (mnemonic env expected) s k t ↔
      ∃ x ts, s.rest = x :: ts ∧ x.kind = .word ∧ KindFor env.registry expected x.text k ∧ t = s.facing ts := by
  unfold mnemonic
  rw [yields_bind]
  simp only [yields_expectAs (k := .word) (by decide)]
  have answer : ∀ (x : Token) (u : ParserState),
      Yields (match expected with
        | some kind => if x.text = kind.name then pure kind else fail (.otherOperation kind.name x.text) x.location
        | none => match env.registry.kind? x.text with
          | some kind => pure kind
          | none => fail (.unknownOperation x.text) x.location) u k t ↔
      KindFor env.registry expected x.text k ∧ t = u := by
    intro x u
    cases expected with
    | some k' => simp [KindFor, yields_ite, and_assoc]
    | none =>
      simp only [KindFor]
      cases env.registry.kind? x.text with
      | none => simp
      | some k' => simp [eq_comm]
  constructor
  · rintro ⟨x, u, ⟨ts, hr, hx, rfl⟩, h⟩
    obtain ⟨hk, rfl⟩ := (answer x _).mp h
    exact ⟨x, ts, hr, hx, hk, rfl⟩
  · rintro ⟨x, ts, hr, hx, hk, rfl⟩
    exact ⟨x, _, ⟨ts, hr, hx, rfl⟩, (answer x _).mpr ⟨hk, rfl⟩⟩

theorem operationBody_sound {st : OperationState} (hk : kind.Valid) (hb : s.block.WellScoped)
    (hv : VisibleTokens s.rest) (h : Yields (operationBody env kind) s st t) :
    ∃ (g : BodySyntax) (m : Statement), Splits g.words s.rest t.rest ∧ nextKind t.rest ∉ g.openers kind ∧
      g.States env kind m ∧ s.block.Consistent (m.uses s.context) ∧ st = m.state s.context kind t.block ∧
      t.block = s.block.mentionAll (m.uses s.context) ∧ t.context = m.context s.context := by
  unfold operationBody at h
  cases hcall : kind.callForm with
  | true =>
    rw [if_pos hcall] at h
    obtain ⟨g, m, hs, hm, hrest⟩ := callForm_sound hcall hb hv h
    exact ⟨.call g, m, hs, by simp [BodySyntax.openers], ⟨hcall, hm⟩, hrest⟩
  | false =>
    rw [if_neg (by simp [hcall])] at h
    obtain ⟨g, m, hs, hopen, hm, hrest⟩ := operandGroup_sound hk hcall hb hv h
    exact ⟨.generic g, m, hs, hopen, ⟨hcall, hm⟩, hrest⟩

theorem operationBody_complete {g : BodySyntax} {m : Statement} {rest : List Token} (hk : kind.Valid)
    (hb : s.block.WellScoped) (hv : VisibleTokens s.rest) (hs : Splits g.words s.rest rest)
    (hopen : nextKind rest ∉ g.openers kind) (hm : g.States env kind m)
    (hcons : s.block.Consistent (m.uses s.context)) :
    ∃ t, Yields (operationBody env kind) s (m.state s.context kind (s.block.mentionAll (m.uses s.context))) t ∧
      t.rest = rest ∧ t.block = s.block.mentionAll (m.uses s.context) ∧ t.context = m.context s.context := by
  unfold operationBody
  cases g with
  | generic g =>
    obtain ⟨hcall, hm⟩ := hm
    rw [if_neg (by simp [hcall])]
    exact operandGroup_complete hk hcall hb hv hs hopen hm hcons
  | call g =>
    obtain ⟨hcall, hm⟩ := hm
    rw [if_pos hcall]
    exact callForm_complete hcall hb hv hs hm hcons

theorem resultLabels_eq {ts : List Token} {l : Line} (h : ts.map (·.text) = l.names) :
    resultLabels ts = l.labels := by
  unfold resultLabels Line.labels
  rw [← h]
  cases ts <;> simp

theorem length_resultTypes (m : Statement) (c : TypeContext) (k : Kind) (b : Block) :
    (m.state c k b).resultTypes.length = m.results.length := by
  simp [Statement.state, length_keepAll]

/-- What is read as an instruction is written as one, and its line has run. -/
theorem instructionBody_sound {expected : Option Kind} {n : Nat}
    (hk : ∀ x k, KindFor env.registry expected x k → k.Valid) (hb : s.block.WellScoped) (hv : VisibleTokens s.rest)
    (h : Yields (instructionBody env expected) s n t) :
    ∃ (x : LineSyntax) (l : Line), Splits x.words s.rest t.rest ∧ nextKind t.rest ∉ x.body.openers l.kind ∧
      x.States env expected l ∧ l.Runs s.context s.block t.block ∧ t.context = l.statement.context s.context ∧
      n = s.block.operations.length := by
  obtain ⟨ts, u, hnames, h⟩ := yields_bind.mp h
  obtain ⟨r1, hs1, rfl⟩ := resultNames_sound hnames
  obtain ⟨k, u, hmnemonic, h⟩ := yields_bind.mp h
  obtain ⟨x, r2, hr, hx, hkind, rfl⟩ := yields_mnemonic.mp hmnemonic
  obtain ⟨st, u, hbody, h⟩ := yields_bind.mp h
  have hs2 : Splits [⟨.word, x.text⟩] r1 r2 := (splits_single rfl).mpr ⟨x, hr, hx, rfl⟩
  obtain ⟨g, m, hs3, hopen, hm, hcons, rfl, hblock, hctx⟩ :=
    operationBody_sound (s := (s.facing r1).facing r2) (hk _ _ hkind) hb (hv.sublist (hs1.append hs2).sublist) hbody
  obtain ⟨⟨⟩, v, hcount, h⟩ := yields_bind.mp h
  obtain ⟨hcount, rfl⟩ := yields_checkResultCount.mp hcount
  obtain ⟨⟨⟩, w, hcheck, h⟩ := yields_bind.mp h
  obtain ⟨hnodup, hfree, rfl⟩ := yields_checkResultNames.mp hcheck
  obtain ⟨op, w, hcreate, h⟩ := yields_bind.mp h
  obtain ⟨hok, rfl⟩ := yields_changeBlock.mp hcreate
  obtain ⟨⟨⟩, w, hrecord, h⟩ := yields_bind.mp h
  obtain rfl := yields_modify.mp hrecord
  obtain ⟨rfl, rfl⟩ := yields_pure.mp h
  have hlabels : resultLabels ts = Line.labels ⟨ts.map (·.text), k, m⟩ := resultLabels_eq rfl
  rw [hlabels] at hok ⊢
  rw [length_resultTypes] at hcount
  simp only [ParserState.block_facing, ParserState.context_facing] at hcons hblock hctx hok
  refine ⟨⟨ts.map Token.text, x.text, g⟩, ⟨ts.map Token.text, k, m⟩, hs1.append (hs2.append hs3), hopen,
    ⟨rfl, hkind, hm⟩, ⟨hcons, ?_, hnodup, ?_, n, ?_⟩, hctx, ?_⟩
  · rcases hcount with rfl | hcount
    · exact .inl rfl
    · exact .inr (by rw [List.length_map]; exact hcount)
  · intro m hm
    rw [Line.front, ← hblock]; exact (hfree m hm).2
  · rw [Line.front, ← hblock]
    exact Prod.ext hok rfl
  · obtain ⟨hn, -⟩ := Block.createOperation_ok (Prod.ext hok rfl)
    rw [hn, hblock, Block.operations_mentionAll]

/-- What is written as an instruction is read if its line can run, and the next token does not go on with it. -/
theorem instructionBody_complete {expected : Option Kind} {x : LineSyntax} {l : Line} {b : Block}
    {rest : List Token} (hk : l.kind.Valid) (hb : s.block.WellScoped) (hv : VisibleTokens s.rest)
    (hs : Splits x.words s.rest rest) (hopen : nextKind rest ∉ x.body.openers l.kind) (hx : x.States env expected l)
    (hrun : l.Runs s.context s.block b) :
    ∃ t, Yields (instructionBody env expected) s s.block.operations.length t ∧ t.rest = rest ∧ t.block = b ∧
      t.context = l.statement.context s.context := by
  obtain ⟨r1, hs1, htail⟩ := Splits.append_iff.mp hs
  obtain ⟨r2, hs2, hs3⟩ := Splits.first_iff.mp htail
  obtain ⟨ts, hts, hnames⟩ := resultNames_complete hs1 (hs2.nextKind_eq rfl)
  obtain ⟨y, hr, hy, hword⟩ := (splits_single rfl).mp hs2
  obtain ⟨u, hbody, hrest, hblock, hctx⟩ := operationBody_complete (s := (s.facing r1).facing r2) hk hb
    (hv.sublist (hs1.append hs2).sublist) hs3 hopen hx.body hrun.consistent
  obtain ⟨n, hcreate⟩ := hrun.created
  have hn : n = s.block.operations.length := by
    rw [(Block.createOperation_ok hcreate).1, Line.front, Block.operations_mentionAll]
  subst hn
  rw [hx.names] at hnames
  have hlabels : resultLabels ts = l.labels := resultLabels_eq hnames
  simp only [ParserState.block_facing, ParserState.context_facing] at hbody hblock hctx
  generalize hst : l.statement.state s.context l.kind (s.block.mentionAll (l.statement.uses s.context)) = st at hbody
  refine ⟨(u.withBlock b).record (.parsed st.opcode.display st.operands.length), ?_, hrest, rfl, hctx⟩
  refine yields_bind.mpr ⟨ts, _, hts, yields_bind.mpr ⟨l.kind, _, yields_mnemonic.mpr ⟨y, r2, hr, hy, ?_, rfl⟩, ?_⟩⟩
  · rw [hword]; exact hx.kind
  refine yields_bind.mpr ⟨_, u, hbody, yields_bind.mpr ⟨(), u, yields_checkResultCount.mpr ⟨?_, rfl⟩, ?_⟩⟩
  · rw [← hst, length_resultTypes]
    rcases hrun.count with h | h
    · exact .inl (List.map_eq_nil_iff.mp (hnames.trans h))
    · right; rw [← h, ← hnames, List.length_map]
  refine yields_bind.mpr ⟨(), u, yields_checkResultNames.mpr ⟨hnames ▸ hrun.distinct, fun n hn => ?_, rfl⟩, ?_⟩
  · refine ⟨nofun, ?_⟩
    rw [hblock]; exact hrun.fresh n (hnames ▸ hn)
  refine yields_bind.mpr ⟨_, u.withBlock b, yields_changeBlock.mpr ?_, yields_bind.mpr ⟨⟨⟩, _, yields_modify.mpr rfl,
    yields_pure.mpr ⟨rfl, rfl⟩⟩⟩
  rw [hlabels, hblock, ← hst]
  exact ⟨congrArg Prod.fst hcreate, congrArg (u.withBlock ·) (congrArg Prod.snd hcreate).symm⟩

theorem yields_withFreshTags {α : Type} {p : Parser α} {a : α} :
    Yields (withFreshTags p) s a t ↔ ∃ u, Yields p (s.withTags []) a u ∧ t = u.withTags s.tags := by
  unfold withFreshTags Yields
  rcases h : p { s with tags := [] } with ⟨answer, u⟩
  simp only [ParserState.withTags, h]
  constructor
  · intro he
    obtain ⟨rfl, rfl⟩ := Prod.mk.inj he
    exact ⟨u, rfl, rfl⟩
  · rintro ⟨v, he, rfl⟩
    obtain ⟨rfl, rfl⟩ := Prod.mk.inj he
    rfl

theorem tryCatch_apply {α : Type} (p : Parser α) (f : ParseFailure → Parser α) (s : ParserState) :
    (tryCatch p f) s = match p s with
      | (.ok a, u) => (.ok a, u)
      | (.error e, u) => f e u := by
  show (ExceptT.tryCatch (m := StateM ParserState) p f) s = _
  unfold ExceptT.tryCatch ExceptT.mk
  show StateT.bind (m := Id) p _ s = _
  unfold StateT.bind
  simp only [pure]
  rcases p s with ⟨_ | _, _⟩ <;> rfl

theorem yields_instruction {expected : Option Kind} {n : Nat} :
    Yields (instruction env expected) s n t ↔
      ∃ u, Yields (instructionBody env expected) (s.withTags []) n u ∧ t = u.withTags s.tags := by
  unfold instruction
  rw [yields_get_bind, ← yields_withFreshTags]
  unfold Yields
  rw [tryCatch_apply]
  rcases h : withFreshTags (instructionBody env expected) s with ⟨e | a, u⟩
  · constructor
    · intro he
      cases e with
      | error d =>
        exact absurd (show Yields (do
          changeBlock fun b => b.discardInputs s.block.inputs.length
          throw (ParseFailure.error d)) u n t from he) (by simp)
      | _ => cases he
    · intro he; cases he
  · rfl

theorem instruction_sound {expected : Option Kind} {n : Nat}
    (hk : ∀ x k, KindFor env.registry expected x k → k.Valid) (hb : s.block.WellScoped) (hv : VisibleTokens s.rest)
    (h : Yields (instruction env expected) s n t) :
    ∃ (x : LineSyntax) (l : Line), Splits x.words s.rest t.rest ∧ nextKind t.rest ∉ x.body.openers l.kind ∧
      x.States env expected l ∧ l.Runs s.context s.block t.block ∧ t.context = l.statement.context s.context ∧
      n = s.block.operations.length := by
  obtain ⟨u, hu, rfl⟩ := yields_instruction.mp h
  exact instructionBody_sound (s := s.withTags []) (t := u) hk hb hv hu

theorem instruction_complete {expected : Option Kind} {x : LineSyntax} {l : Line} {b : Block}
    {rest : List Token} (hk : l.kind.Valid) (hb : s.block.WellScoped) (hv : VisibleTokens s.rest)
    (hs : Splits x.words s.rest rest) (hopen : nextKind rest ∉ x.body.openers l.kind) (hx : x.States env expected l)
    (hrun : l.Runs s.context s.block b) :
    ∃ t, Yields (instruction env expected) s s.block.operations.length t ∧ t.rest = rest ∧ t.block = b ∧
      t.context = l.statement.context s.context := by
  obtain ⟨u, hu, hrest, hblock, hctx⟩ :=
    instructionBody_complete (s := s.withTags []) hk hb hv hs hopen hx hrun
  exact ⟨u.withTags s.tags, yields_instruction.mpr ⟨u, hu, rfl⟩, hrest, hblock, hctx⟩

/-! ## Modules -/

theorem yields_atEnd_bind {α : Type} {f : Bool → Parser α} {a : α} :
    Yields (atEnd >>= f) s a t ↔ Yields (f (decide (nextKind s.rest = .endOfText))) s a t := by
  simp only [atEnd, bind_assoc, pure_bind, yields_peek_bind, kind_ahead_zero]

/-- What is read as instructions is written as such, and their lines have run one after the other. -/
theorem instructions_sound {fuel : Nat} {y : Unit} (hk : ∀ x k, env.registry.kind? x = some k → k.Valid)
    (hf : s.rest.length ≤ fuel) (hb : s.block.WellScoped) (hv : VisibleTokens s.rest)
    (h : Yields (instructions env fuel) s y t) :
    ∃ xs : List (LineSyntax × Line), Splits (xs.flatMap (·.1.words)) s.rest t.rest ∧ nextKind t.rest = .endOfText ∧
      (∀ x ∈ xs, x.1.States env none x.2) ∧ Line.RunAll (xs.map (·.2)) s.context s.block t.block := by
  induction fuel generalizing s with
  | zero =>
    obtain ⟨rfl, rfl⟩ := yields_pure.mp h
    have : t.rest = [] := List.length_eq_zero_iff.mp (by omega)
    exact ⟨[], Splits.nil_iff.mpr rfl, by rw [this]; rfl, by simp, rfl⟩
  | succ fuel ih =>
    rw [instructions, yields_atEnd_bind, yields_ite] at h
    rcases h with ⟨hend, h⟩ | ⟨-, h⟩
    · obtain ⟨rfl, rfl⟩ := yields_pure.mp h
      exact ⟨[], Splits.nil_iff.mpr rfl, by simpa using hend, by simp, rfl⟩
    · obtain ⟨n, u, hone, h⟩ := yields_bind.mp h
      obtain ⟨x, l, hs, -, hx, hrun, hctx, -⟩ := instruction_sound
        (show ∀ x k, KindFor env.registry none x k → k.Valid from hk) hb hv hone
      have hlen : u.rest.length ≤ fuel := hs.rest_le x.words_ne_nil hf
      obtain ⟨xs, hs', hend, hxs, hall⟩ := ih hlen (hrun.wellScoped hb) (hv.sublist hs.sublist) h
      refine ⟨(x, l) :: xs, hs.append hs', hend, ?_, u.block, hrun, ?_⟩
      · intro z hz
        rcases List.mem_cons.mp hz with rfl | hz
        · exact hx
        · exact hxs z hz
      · rw [← hctx]; exact hall

/-- No instruction is followed by a token that goes on with it. -/
def Apart : List (LineSyntax × Line) → Prop
  | [] => True
  | x :: xs => firstKind (xs.flatMap (·.1.words)) .endOfText ∉ x.1.body.openers x.2.kind ∧ Apart xs

/-- Instructions that are written one after the other are read if their lines can run and each of them ends
where the next one starts. -/
theorem instructions_complete {fuel : Nat} (xs : List (LineSyntax × Line)) {b : Block} (hf : s.rest.length ≤ fuel)
    (hb : s.block.WellScoped) (hv : VisibleTokens s.rest) (hs : Splits (xs.flatMap (·.1.words)) s.rest [])
    (hk : ∀ x ∈ xs, x.2.kind.Valid) (hx : ∀ x ∈ xs, x.1.States env none x.2) (hapart : Apart xs)
    (hrun : Line.RunAll (xs.map (·.2)) s.context s.block b) :
    ∃ t, Yields (instructions env fuel) s () t ∧ t.rest = [] ∧ t.block = b := by
  induction xs generalizing s fuel with
  | nil =>
    have hr : s.rest = [] := Splits.nil_iff.mp hs
    obtain rfl : b = s.block := hrun
    refine ⟨s, ?_, hr, rfl⟩
    cases fuel with
    | zero => exact yields_pure.mpr ⟨rfl, rfl⟩
    | succ fuel =>
      rw [instructions, yields_atEnd_bind, hr]
      exact yields_pure.mpr ⟨rfl, rfl⟩
  | cons x xs ih =>
    obtain ⟨rest, hs1, hs2⟩ := Splits.append_iff.mp (show Splits (x.1.words ++ _) s.rest [] from hs)
    obtain ⟨b₁, hrun1, hrun2⟩ := hrun
    have hnext : nextKind rest = firstKind (xs.flatMap (·.1.words)) .endOfText := hs2.nextKind
    -- the instruction ends where the next one starts, so it takes its own words only
    obtain ⟨u, hone, hrest, hblock, hctx⟩ := instruction_complete
      (hk x List.mem_cons_self) hb hv hs1 (hnext ▸ hapart.1) (hx x List.mem_cons_self) hrun1
    cases fuel with
    | zero => exact absurd (List.length_eq_zero_iff.mp (Nat.le_zero.mp hf)) (hs1.ne_nil x.1.words_ne_nil)
    | succ fuel =>
      have hlen : u.rest.length ≤ fuel := hrest ▸ hs1.rest_le x.1.words_ne_nil hf
      obtain ⟨t, ht, hend, hlast⟩ := ih (s := u) hlen (hblock ▸ hrun1.wellScoped hb)
        (hrest ▸ hv.sublist hs1.sublist) (hrest ▸ hs2) (fun y hy => hk y (List.mem_cons_of_mem _ hy))
        (fun y hy => hx y (List.mem_cons_of_mem _ hy)) hapart.2 (by rw [hctx, hblock]; exact hrun2)
      refine ⟨t, ?_, hend, hlast⟩
      have more : nextKind s.rest ≠ .endOfText := by
        rw [hs1.nextKind]
        simp only [LineSyntax.words, firstKind_append]
        cases x.1.names <;> simp [LineSyntax.nameWords, listed_cons]
      rw [instructions, yields_atEnd_bind, if_neg (by simpa using more)]
      exact yields_bind.mpr ⟨_, u, hone, ht⟩

end Parser

end GateAsm
