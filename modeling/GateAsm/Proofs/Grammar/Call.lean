import GateAsm.Proofs.Grammar.Group

/-!
# The grammar of calls

A call names its callee, states a number and lists its arguments in parentheses; tags, the types of the
arguments and the type of the one result follow. Every part in front of the result has a word that ends
it, so that nothing depends on what stands behind a call.
-/

namespace GateAsm

structure CallSyntax where
  callee : String
  count : String
  arguments : List OperandSyntax
  tags : Option (List (String × LiteralSyntax))
  types : List TypeSyntax
  result : TypeSyntax

namespace CallSyntax

def argumentWords (os : List OperandSyntax) : List Word := (os.map OperandSyntax.words).flatMap (.mark .comma :: ·)

def front (g : CallSyntax) : List Word :=
  ⟨.symbolName, g.callee⟩ :: .mark .openParen :: ⟨.int, g.count⟩ ::
    (argumentWords g.arguments ++ [.mark .closeParen])

def words (g : CallSyntax) : List Word :=
  g.front ++ (bracedWords g.tags ++ (TypeSyntax.marked .colon g.types ++ (.mark .arrow :: g.result.words)))

structure States (registry : Registry) (k : Kind) (g : CallSyntax) (m : Statement) : Prop where
  content : ∃ n fs, intLiteral? g.count = some n ∧ OperandSyntax.fillers? g.arguments = some fs ∧
    m.content = ⟨.call (String.ofList (g.callee.toList.drop 1)) n, fs⟩
  small : m.content.Small
  tags : tagValues? (g.tags.getD []) = some m.tags
  own : Addable k.structuralTags [] m.tags
  types : TypeSyntax.tys? registry g.types = some m.types
  count : m.types.length = m.content.mains.length
  results : ∃ ty, g.result.ty? registry = some ty ∧ m.results = [ty]

end CallSyntax

/-- What the parser keeps for arguments stands for these fillers. -/
def ArgumentsStand : List Argument → List (Filler String) → Prop
  | [], [] => True
  | a :: as, f :: fs =>
    (a.main.name = f.main ∧ a.accessors = f.accessors ∧ a.references.map (·.name) = f.references) ∧
      ArgumentsStand as fs
  | _, _ => False

section
variable {as : List Argument} {fs : List (Filler String)}

theorem ArgumentsStand.length_eq (h : ArgumentsStand as fs) : as.length = fs.length := by
  induction as generalizing fs with
  | nil => cases fs <;> first | rfl | cases h
  | cons a as ih =>
    cases fs with
    | nil => cases h
    | cons f fs => simpa using ih h.2

theorem ArgumentsStand.accessors_eq (h : ArgumentsStand as fs) :
    (as.map fun a => Attr.accessors a.accessors) = fs.map fun f => .accessors f.accessors := by
  induction as generalizing fs with
  | nil => cases fs <;> first | rfl | cases h
  | cons a as ih =>
    cases fs with
    | nil => cases h
    | cons f fs => rw [List.map_cons, List.map_cons, h.1.2.1, ih h.2]

theorem ArgumentsStand.references_eq (h : ArgumentsStand as fs) :
    (as.flatMap (·.references)).map (·.name) = fs.flatMap Filler.references := by
  induction as generalizing fs with
  | nil => cases fs <;> first | rfl | cases h
  | cons a as ih =>
    cases fs with
    | nil => cases h
    | cons f fs => rw [List.flatMap_cons, List.map_append, h.1.2.2, ih h.2, List.flatMap_cons]

theorem ArgumentsStand.mains_eq (h : ArgumentsStand as fs) : as.map (·.main.name) = fs.map (·.main) := by
  induction as generalizing fs with
  | nil => cases fs <;> first | rfl | cases h
  | cons a as ih =>
    cases fs with
    | nil => cases h
    | cons f fs => rw [List.map_cons, List.map_cons, h.1.1, ih h.2]

theorem callAttrs_eq {callee : String} {n : Int} (k : Kind) (h : ArgumentsStand as fs) :
    Parser.callAttrs callee n as = (Content.mk (.call callee n) fs).structural k := by
  have hrefs : (as.flatMap (·.references)).length = (fs.flatMap Filler.references).length := by
    rw [← h.references_eq, List.length_map]
  unfold Parser.callAttrs Content.structural
  rw [h.accessors_eq, h.length_eq, hrefs]

theorem callOperands_eq {callee : String} {n : Int} (h : ArgumentsStand as fs) :
    (Parser.callOperands as).map (fun x => (x.1.name, x.2)) = (Content.mk (.call callee n) fs).flagged := by
  have hm : as.map (fun a => (a.main.name, false)) = fs.map (fun f => (f.main, false)) := by
    have := congrArg (List.map (·, false)) h.mains_eq
    rwa [List.map_map, List.map_map] at this
  have hr : (as.flatMap (·.references)).map (fun r => (r.name, true)) =
      (fs.flatMap Filler.references).map (·, true) := by
    rw [← h.references_eq, List.map_map]; rfl
  simp only [Parser.callOperands, Content.flagged, List.map_append, List.map_map]
  exact congr (congrArg _ hm) hr

end

namespace Parser

variable {env : ParserEnv} {kind : Kind} {s t : ParserState}

theorem yields_symbol {n : String} :
    Yields symbol s n t ↔
      ∃ x ts, s.rest = x :: ts ∧ x.kind = .symbolName ∧ n = String.ofList (x.text.toList.drop 1) ∧ t = s.facing ts := by
  simp only [symbol, yields_bind, yields_expect (k := .symbolName) (by decide), yields_pure]
  constructor
  · rintro ⟨x, u, ⟨ts, hr, hx, rfl⟩, rfl, rfl⟩; exact ⟨x, ts, hr, hx, rfl, rfl⟩
  · rintro ⟨x, ts, hr, hx, rfl, rfl⟩; exact ⟨x, _, ⟨ts, hr, hx, rfl⟩, rfl, rfl⟩

theorem yields_integer {wanted : String} {n : Int} :
    Yields (integer wanted) s n t ↔
      ∃ x ts, s.rest = x :: ts ∧ x.kind = .int ∧ intLiteral? x.text = some n ∧ t = s.facing ts := by
  simp only [integer, yields_bind, yields_expectAs (k := .int) (by decide), yields_integerOf]
  constructor
  · rintro ⟨x, u, ⟨ts, hr, hx, rfl⟩, hn, rfl⟩; exact ⟨x, ts, hr, hx, hn, rfl⟩
  · rintro ⟨x, ts, hr, hx, hn, rfl⟩; exact ⟨x, _, ⟨ts, hr, hx, rfl⟩, hn, rfl⟩

theorem arguments_sound {fuel : Nat} {as : List Argument} (hf : s.rest.length ≤ fuel)
    (h : Yields (arguments fuel) s as t) :
    ∃ os fs rest, Splits (CallSyntax.argumentWords os) s.rest rest ∧ OperandSyntax.fillers? os = some fs ∧
      ArgumentsStand as fs ∧ t = s.facing rest := by
  induction fuel generalizing s as with
  | zero =>
    obtain ⟨rfl, rfl⟩ := yields_pure.mp h
    exact ⟨[], [], t.rest, Splits.nil_iff.mpr rfl, rfl, trivial, rfl⟩
  | succ fuel ih =>
    rcases (yields_unlessMark rfl (by decide)).mp h with ⟨us, hc, h⟩ | ⟨-, h⟩
    · obtain ⟨r, u, hr, h⟩ := yields_bind.mp h
      obtain ⟨x, vs, hrest, hk, rfl, rfl⟩ := yields_operand.mp hr
      obtain ⟨⟨a, refs⟩, u, hacc, h⟩ := yields_bind.mp h
      obtain ⟨ps, parts, ws, hs, hp, hl, -, ⟨rfl, hrefs⟩, rfl⟩ := accessorList_sound hacc
      obtain ⟨others, u, hothers, h⟩ := yields_bind.mp h
      obtain ⟨rfl, rfl⟩ := yields_pure.mp h
      have hname : Splits [⟨.valueName, x.text⟩] us vs := (splits_single rfl).mpr ⟨x, hrest, hk, rfl⟩
      have hlen : ws.length ≤ fuel := (hc.append (hname.append hs)).rest_le (List.cons_ne_nil _ _) hf
      obtain ⟨os, fs, rest, hs', hfs, hstand, rfl⟩ := ih hlen hothers
      refine ⟨⟨x.text, ps⟩ :: os, ⟨x.text, parts⟩ :: fs, rest, ?_, ?_, ⟨⟨rfl, rfl, hrefs⟩, hstand⟩, rfl⟩
      · have := hc.append (hname.append (hs.append hs'))
        simpa [CallSyntax.argumentWords, OperandSyntax.words] using this
      · exact OperandSyntax.fillers?_cons_iff.mpr ⟨_, fs, OperandSyntax.filler?_eq_some_iff.mpr ⟨hp, hl, rfl⟩, hfs, rfl⟩
    · obtain ⟨rfl, rfl⟩ := yields_pure.mp h
      exact ⟨[], [], t.rest, Splits.nil_iff.mpr rfl, rfl, trivial, rfl⟩

theorem arguments_complete {fuel : Nat} {os : List OperandSyntax} {fs : List (Filler String)} {rest : List Token}
    (hf : s.rest.length ≤ fuel) (hs : Splits (CallSyntax.argumentWords os) s.rest rest)
    (hfs : OperandSyntax.fillers? os = some fs) (hend : nextKind rest = .closeParen) :
    ∃ as, Yields (arguments fuel) s as (s.facing rest) ∧ ArgumentsStand as fs := by
  induction fuel generalizing s os fs with
  | zero =>
    have hr : s.rest = [] := List.length_eq_zero_iff.mp (by omega)
    have := hs.nextKind
    rw [hend, hr] at this
    cases os <;> simp [CallSyntax.argumentWords] at this
  | succ fuel ih =>
    cases os with
    | nil =>
      cases hfs
      obtain rfl := Splits.nil_iff.mp hs
      refine ⟨[], (yields_unlessMark rfl (by decide)).mpr (.inr ⟨?_, yields_pure.mpr ⟨rfl, rfl⟩⟩), trivial⟩
      rw [hend]; exact nofun
    | cons o os =>
      obtain ⟨f, gs, hf1, hg, rfl⟩ := OperandSyntax.fillers?_cons_iff.mp hfs
      obtain ⟨hp, hl, hname⟩ := OperandSyntax.filler?_eq_some_iff.mp hf1
      have hsplit : Splits ([Word.mark .comma] ++ ([⟨.valueName, o.name⟩] ++ (OperandSyntax.accessorWords o.parts ++
          CallSyntax.argumentWords os))) s.rest rest := by
        simpa [CallSyntax.argumentWords, OperandSyntax.words] using hs
      obtain ⟨us, hc, htail⟩ := Splits.append_iff.mp hsplit
      obtain ⟨vs, hv, htail2⟩ := Splits.append_iff.mp htail
      obtain ⟨ws, ha, hmore⟩ := Splits.append_iff.mp htail2
      obtain ⟨x, hr, hk, hx⟩ := (splits_single rfl).mp hv
      -- behind the accessor stands a comma or the closing parenthesis
      have hbracket : nextKind ws ≠ .openBracket := by
        rw [hmore.nextKind, hend]
        cases os <;> simp [CallSyntax.argumentWords]
      obtain ⟨⟨a, refs⟩, hacc, rfl, hrefs⟩ :=
        accessorList_complete (s := (s.facing us).facing vs) ha hp hl (fun _ => hbracket)
      have hlen : ws.length ≤ fuel := (hc.append (hv.append ha)).rest_le (List.cons_ne_nil _ _) hf
      obtain ⟨as, has, hstand⟩ := ih (s := (s.facing us).facing ws) hlen hmore hg
      refine ⟨⟨⟨x.text, x.location⟩, accessorsOf f.parts, refs⟩ :: as, ?_, ⟨hx.trans hname, rfl, hrefs⟩, hstand⟩
      refine (yields_unlessMark rfl (by decide)).mpr (.inl ⟨us, hc, yields_bind.mpr ⟨_, _,
        yields_operand.mpr ⟨x, vs, hr, hk, rfl, rfl⟩, ?_⟩⟩)
      refine yields_bind.mpr ⟨_, _, hacc, yields_bind.mpr ⟨as, _, has, yields_pure.mpr ⟨rfl, rfl⟩⟩⟩

theorem yields_checkSegments {sizes : List Nat} {x : Unit} :
    Yields (checkSegments sizes) s x t ↔ sizes.all (· < segmentLimit) = true ∧ t = s := by
  simp only [checkSegments, yields_ite, yields_pure, not_yields_throw, and_false, or_false]
  constructor
  · rintro ⟨small, -, rfl⟩; exact ⟨small, rfl⟩
  · rintro ⟨small, rfl⟩; exact ⟨small, trivial, rfl⟩

theorem segments_small {as : List Argument} {fs : List (Filler String)} {callee : String} {n : Int}
    (h : ArgumentsStand as fs) : [as.length, (as.flatMap (·.references)).length].all (· < segmentLimit) = true ↔
      (Content.mk (.call callee n) fs).Small := by
  have hrefs : (as.flatMap (·.references)).length = (fs.flatMap Filler.references).length := by
    rw [← h.references_eq, List.length_map]
  rw [h.length_eq, hrefs]
  simp [Content.Small]

theorem argument_words {os : List OperandSyntax} {callee : String} {n : Int} {fs : List (Filler String)} {name : String}
    (hfs : OperandSyntax.fillers? os = some fs) (hn : name ∈ (Content.mk (.call callee n) fs).physical) :
    ⟨.valueName, name⟩ ∈ CallSyntax.argumentWords os := by
  obtain ⟨⟨name, flag⟩, hx, rfl⟩ := List.mem_map.mp hn
  obtain ⟨f, hf, hnf⟩ : ∃ f ∈ fs, name = f.main ∨ name ∈ f.references := by
    rcases List.mem_append.mp hx with hx | hx
    · obtain ⟨f, hf, he⟩ := List.mem_map.mp hx
      cases he; exact ⟨f, hf, .inl rfl⟩
    · obtain ⟨m, hm, he⟩ := List.mem_map.mp hx
      obtain ⟨f, hf, hm⟩ := List.mem_flatMap.mp hm
      cases he; exact ⟨f, hf, .inr hm⟩
  obtain ⟨o, ho, h⟩ := fillers_words hfs hf hnf
  exact List.mem_flatMap.mpr ⟨o.words, List.mem_map.mpr ⟨o, ho, rfl⟩, List.mem_cons_of_mem _ h⟩

theorem legal_of_fillers? {os : List OperandSyntax} {fs : List (Filler String)}
    (hfs : OperandSyntax.fillers? os = some fs) : ∀ f ∈ fs, LegalParts f.parts := by
  induction os generalizing fs with
  | nil => cases hfs; simp
  | cons o os ih =>
    obtain ⟨f, gs, hf, hg, rfl⟩ := OperandSyntax.fillers?_cons_iff.mp hfs
    intro x hx
    rcases List.mem_cons.mp hx with rfl | hx
    · exact OperandSyntax.legal_of_filler? hf
    · exact ih hg x hx

/-- The callee, the number and the arguments that are read from the state are written as `x`, `y` and `os`, and
come to a content. -/
structure CallFront (kind : Kind) (s : ParserState) (callee : String) (n : Int) (as : List Argument) (t : ParserState)
    (x y : String) (os : List OperandSyntax) (fs : List (Filler String)) : Prop where
  words : Splits (⟨.symbolName, x⟩ :: .mark .openParen :: ⟨.int, y⟩ ::
    (CallSyntax.argumentWords os ++ [.mark .closeParen])) s.rest t.rest
  symbol : callee = String.ofList (x.toList.drop 1)
  number : intLiteral? y = some n
  fillers : OperandSyntax.fillers? os = some fs
  stands : ArgumentsStand as fs
  fits : (Content.mk (.call callee n) fs).Fits kind
  visible : ∀ m ∈ (Content.mk (.call callee n) fs).physical, Block.Visible m
  block : t.block = s.block
  context : t.context = s.context

theorem callFront_sound {callee : String} {n : Int} {as : List Argument} {y z : Token} {u v w x : ParserState}
    (hcall : kind.callForm = true) (hv : VisibleTokens s.rest) (hcallee : Yields symbol s callee u)
    (hopen : Yields (expect .openParen) u y v) (hn : Yields (integer "argument count") v n w)
    (has : Yields (arguments w.rest.length) w as x) (hclose : Yields (expect .closeParen) x z t)
    (hsmall : [as.length, (as.flatMap (·.references)).length].all (· < segmentLimit) = true) :
    ∃ name digits os fs, CallFront kind s callee n as t name digits os fs := by
  obtain ⟨name, r1, hx, hxk, rfl, rfl⟩ := yields_symbol.mp hcallee
  obtain ⟨r2, hr2, hyk, rfl⟩ := (yields_expect (by decide)).mp hopen
  obtain ⟨digits, r3, hy, hdk, hyn, rfl⟩ := yields_integer.mp hn
  obtain ⟨os, fs, r4, hs4, hfs, hstand, rfl⟩ := arguments_sound (Nat.le_refl _) has
  obtain ⟨r5, hr5, hzk, rfl⟩ := (yields_expect (by decide)).mp hclose
  have hsymbol : Splits [⟨.symbolName, name.text⟩] s.rest r1 := (splits_single rfl).mpr ⟨name, hx, hxk, rfl⟩
  have hparen : Splits [Word.mark .openParen] r1 r2 := (splits_mark_iff rfl).mpr ⟨y, hr2, hyk⟩
  have hnumber : Splits [⟨.int, digits.text⟩] r2 r3 := (splits_single rfl).mpr ⟨digits, hy, hdk, rfl⟩
  have hend : Splits [Word.mark .closeParen] r4 r5 := (splits_mark_iff rfl).mpr ⟨z, hr5, hzk⟩
  refine ⟨name.text, digits.text, os, fs, hsymbol.append (hparen.append (hnumber.append (hs4.append hend))),
    rfl, hyn, hfs, hstand, ⟨hcall, legal_of_fillers? hfs, (segments_small hstand).mp hsmall⟩, fun m hm => ?_, rfl, rfl⟩
  exact (hv.sublist ((hsymbol.append (hparen.append hnumber)).sublist)).of_splits hs4 (argument_words hfs hm)

theorem callWords_complete {x y : String} {n : Int} {os : List OperandSyntax} {fs : List (Filler String)}
    {rest : List Token} (hs : Splits (⟨.symbolName, x⟩ :: .mark .openParen :: ⟨.int, y⟩ ::
      (CallSyntax.argumentWords os ++ [.mark .closeParen])) s.rest rest)
    (hn : intLiteral? y = some n) (hfs : OperandSyntax.fillers? os = some fs) :
    ∃ as r1 r2 r3 r4, Yields symbol s (String.ofList (x.toList.drop 1)) (s.facing r1) ∧
      Splits [Word.mark .openParen] r1 r2 ∧ Yields (integer "argument count") (s.facing r2) n (s.facing r3) ∧
      Yields (arguments r3.length) (s.facing r3) as (s.facing r4) ∧ Splits [Word.mark .closeParen] r4 rest ∧
      ArgumentsStand as fs := by
  obtain ⟨r1, hsymbol, hs1⟩ := Splits.first_iff.mp hs
  obtain ⟨r2, hopen, hs2⟩ := Splits.first_iff.mp hs1
  obtain ⟨r3, hnumber, hs3⟩ := Splits.first_iff.mp hs2
  obtain ⟨r4, hargs, hclose⟩ := Splits.append_iff.mp hs3
  obtain ⟨name, hx, hxk, rfl⟩ := (splits_single rfl).mp hsymbol
  obtain ⟨digits, hy, hyk, rfl⟩ := (splits_single rfl).mp hnumber
  obtain ⟨as, has, hstand⟩ := arguments_complete (s := s.facing r3) (Nat.le_refl _) hargs hfs (hclose.nextKind_eq rfl)
  exact ⟨as, r1, r2, r3, r4, yields_symbol.mpr ⟨name, r1, hx, hxk, rfl, rfl⟩, hopen,
    yields_integer.mpr ⟨digits, r3, hy, hyk, hn, rfl⟩, has, hclose, hstand⟩

theorem callForm_tooLarge {x y : String} {n : Int} {os : List OperandSyntax} {fs : List (Filler String)}
    {rest : List Token} (hs : Splits (⟨.symbolName, x⟩ :: .mark .openParen :: ⟨.int, y⟩ ::
      (CallSyntax.argumentWords os ++ [.mark .closeParen])) s.rest rest)
    (hn : intLiteral? y = some n) (hfs : OperandSyntax.fillers? os = some fs)
    (hlarge : ¬ (Content.mk (.call (String.ofList (x.toList.drop 1)) n) fs).Small) :
    callForm env kind s = (.error .segmentTooLarge, s.facing rest) := by
  obtain ⟨as, r1, r2, r3, r4, hsymbol, hopen, hnumber, hargs, hclose, hstand⟩ := callWords_complete hs hn hfs
  obtain ⟨y, hr2, hyk⟩ := (splits_mark_iff rfl).mp hopen
  obtain ⟨z, hr5, hzk⟩ := (splits_mark_iff rfl).mp hclose
  have opened : Yields (expect .openParen) (s.facing r1) y (s.facing r2) :=
    (yields_expect (by decide)).mpr ⟨r2, hr2, hyk, rfl⟩
  have closed : Yields (expect .closeParen) (s.facing r4) z (s.facing rest) :=
    (yields_expect (by decide)).mpr ⟨rest, hr5, hzk, rfl⟩
  have stops : checkSegments [as.length, (as.flatMap (·.references)).length] (s.facing rest) =
      (.error .segmentTooLarge, s.facing rest) := by
    rw [checkSegments, if_neg (mt (segments_small hstand).mp hlarge)]
    rfl
  unfold callForm
  rw [hsymbol.bind_eq, opened.bind_eq, hnumber.bind_eq, get_bind_apply, ParserState.rest_facing, hargs.bind_eq,
    closed.bind_eq, bind_apply, stops]
  rfl

theorem callFront_complete {x y : String} {n : Int} {os : List OperandSyntax} {fs : List (Filler String)}
    {rest : List Token} (hcall : kind.callForm = true) (hv : VisibleTokens s.rest)
    (hs : Splits (⟨.symbolName, x⟩ :: .mark .openParen :: ⟨.int, y⟩ ::
      (CallSyntax.argumentWords os ++ [.mark .closeParen])) s.rest rest)
    (hn : intLiteral? y = some n) (hfs : OperandSyntax.fillers? os = some fs)
    (hsmall : (Content.mk (.call (String.ofList (x.toList.drop 1)) n) fs).Small) :
    ∃ as r1 r2 r3 r4, Yields symbol s (String.ofList (x.toList.drop 1)) (s.facing r1) ∧
      Splits [Word.mark .openParen] r1 r2 ∧ Yields (integer "argument count") (s.facing r2) n (s.facing r3) ∧
      Yields (arguments r3.length) (s.facing r3) as (s.facing r4) ∧ Splits [Word.mark .closeParen] r4 rest ∧
      CallFront kind s (String.ofList (x.toList.drop 1)) n as (s.facing rest) x y os fs := by
  obtain ⟨as, r1, r2, r3, r4, hsymbol, hopen, hnumber, hargs, hclose, hstand⟩ := callWords_complete hs hn hfs
  refine ⟨as, r1, r2, r3, r4, hsymbol, hopen, hnumber, hargs, hclose, hs, rfl, hn, hfs, hstand,
    ⟨hcall, legal_of_fillers? hfs, hsmall⟩, fun m hm => hv.of_splits hs ?_, rfl, rfl⟩
  have written := List.mem_append_left [Word.mark .closeParen] (argument_words hfs hm)
  exact List.mem_cons_of_mem _ (List.mem_cons_of_mem _ (List.mem_cons_of_mem _ written))

/-- What the parser of calls reads is written in their form, and comes to a statement whose operands are
consistent. -/
theorem callForm_sound {st : OperationState} (hcall : kind.callForm = true)
    (hb : s.block.WellScoped) (hv : VisibleTokens s.rest) (h : Yields (callForm env kind) s st t) :
    ∃ g m, Splits (CallSyntax.words g) s.rest t.rest ∧ g.States env.registry kind m ∧
      s.block.Consistent (m.uses s.context) ∧ st = m.state s.context kind t.block ∧
      t.block = s.block.mentionAll (m.uses s.context) ∧ t.context = m.context s.context := by
  unfold callForm at h
  obtain ⟨callee, u, hcallee, h⟩ := yields_bind.mp h
  obtain ⟨y, u1, hopen, h⟩ := yields_bind.mp h
  obtain ⟨n, u2, hn, h⟩ := yields_bind.mp h
  rw [yields_get_bind] at h
  obtain ⟨as, u3, has, h⟩ := yields_bind.mp h
  obtain ⟨z, u4, hclose, h⟩ := yields_bind.mp h
  obtain ⟨⟨⟩, u5, hsegments, hlater⟩ := yields_bind.mp h
  obtain ⟨hsmall, rfl⟩ := yields_checkSegments.mp hsegments
  rw [yields_modify_bind] at hlater
  obtain ⟨ids, u, hids, h⟩ := yields_bind.mp hlater
  obtain ⟨name, digits, os, fs, front⟩ := callFront_sound hcall hv hcallee hopen hn has hclose hsmall
  have hreserved := Content.structural_reserved front.fits
  obtain ⟨es, user, ws, types, r6, hs5, hs6, huser, hown, -, htys, -, hcount, hcons, rfl, hblock, hctx, htags⟩ :=
    boundOperands_sound (callOperands_eq front.stands) (by simpa [front.block] using hb)
      (visible_flagged front.visible) hids
  obtain ⟨r7, harrow, h⟩ := (yields_mark rfl (by decide)).mp h
  obtain ⟨ty, v, hty, h⟩ := yields_bind.mp h
  obtain ⟨w, ty, r8, hs7, hw, rfl, rfl⟩ := yields_typeExpr.mp hty
  rw [yields_get_bind, yields_pure] at h
  obtain ⟨rfl, rfl⟩ := h
  simp only [ParserState.block_facing, ParserState.context_facing, ParserState.tags_facing,
    ParserState.rest_facing, ParserState.block_keeping, ParserState.context_keeping,
    ParserState.tags_keeping, callAttrs_eq kind front.stands, front.block, front.context] at *
  refine ⟨⟨name, digits, os, es, ws, w⟩, ⟨⟨.call callee n, fs⟩, types, user, [ty]⟩, ?_, ?_, hcons, ?_, hblock, ?_⟩
  · exact front.words.append (hs5.append (hs6.append (harrow.append hs7)))
  · refine ⟨⟨n, fs, front.number, front.fillers, by rw [front.symbol]⟩, front.fits.2.2, huser,
      (addable_reserved_iff hreserved).mp hown, htys, ?_, ⟨ty, hw, rfl⟩⟩
    rw [hcount, Content.mains_eq_filter, List.length_map]
  · simp only [Statement.state, htags, hctx, Content.physical, List.map_map, Function.comp_def, TypeContext.keepAll,
      List.map_cons, List.map_nil]
  · rw [hctx]; rfl

/-- What is written as a call is read, if its operands are consistent. -/
theorem callForm_complete {g : CallSyntax} {m : Statement} {rest : List Token} (hcall : kind.callForm = true)
    (hb : s.block.WellScoped) (hv : VisibleTokens s.rest) (hs : Splits g.words s.rest rest)
    (hm : g.States env.registry kind m) (hcons : s.block.Consistent (m.uses s.context)) :
    ∃ t, Yields (callForm env kind) s (m.state s.context kind (s.block.mentionAll (m.uses s.context))) t ∧
      t.rest = rest ∧ t.block = s.block.mentionAll (m.uses s.context) ∧ t.context = m.context s.context := by
  obtain ⟨n, fs, hn, hfs, hcontent⟩ := hm.content
  obtain ⟨ty, hty, hres⟩ := hm.results
  obtain ⟨content, types, user, res⟩ := m
  subst hcontent hres
  -- what stands behind the closing parenthesis, the tags, the types and the arrow
  obtain ⟨r5, hfront, hlater⟩ := Splits.append_iff.mp hs
  obtain ⟨r6, hes, hlater2⟩ := Splits.append_iff.mp hlater
  obtain ⟨r7, hws, hlater3⟩ := Splits.append_iff.mp hlater2
  obtain ⟨r8, harrow, hw⟩ := Splits.first_iff.mp hlater3
  obtain ⟨as, r1, r2, r3, r4, hsymbol, hopen, hnumber, hargs, hclose, front⟩ :=
    callFront_complete hcall hv hfront hn hfs hm.small
  generalize String.ofList (g.callee.toList.drop 1) = callee at hsymbol front hcons ⊢
  have hattrs : callAttrs callee n as = (Content.mk (.call callee n) fs).structural kind :=
    callAttrs_eq kind front.stands
  obtain ⟨v, hbound, hrest, hblock, hctx, htags⟩ : ∃ v, Yields (boundOperands env kind (callOperands as))
      ((s.facing r5).withTags (callAttrs callee n as))
      ((Content.mk (.call callee n) fs).flagged.map fun o =>
        ((s.block.mentionAll (typedUses s.context (Content.mk (.call callee n) fs).flagged types)).lookup
          o.1).getD 0) v ∧
      v.rest = r7 ∧
      v.block = s.block.mentionAll (typedUses s.context (Content.mk (.call callee n) fs).flagged types) ∧
      v.context = (indexAfter s.context types).2 ∧ v.tags = callAttrs callee n as ++ user := by
    refine boundOperands_complete (callOperands_eq front.stands) hb (visible_flagged front.visible) hes hws hm.tags ?_
      (fun _ => ?_) hm.types ?_ ?_ hcons
    · rw [ParserState.tags_withTags, hattrs]
      exact (addable_reserved_iff (Content.structural_reserved front.fits)).mpr hm.own
    · rw [hlater2.nextKind, firstKind_append, GroupSyntax.firstKind_marked]
      split <;> exact nofun
    · rw [harrow.nextKind_eq rfl]
      cases g.types <;> exact nofun
    · have := hm.count
      rwa [Content.mains_eq_filter, List.length_map] at this
  -- the routines of the parser one after the other, each on the tokens of its part
  refine ⟨(v.keeping ty).facing rest, ?_, rfl, ?_, ?_⟩
  · unfold callForm
    refine yields_bind.mpr ⟨_, _, hsymbol, (yields_mark rfl (by decide)).mpr ⟨r2, hopen, ?_⟩⟩
    refine yields_bind.mpr ⟨n, _, hnumber, yields_get_bind.mpr (yields_bind.mpr ⟨as, _, hargs, ?_⟩)⟩
    refine (yields_mark rfl (by decide)).mpr ⟨r5, hclose, yields_bind.mpr ⟨(), _,
      yields_checkSegments.mpr ⟨(segments_small front.stands).mpr hm.small, rfl⟩, ?_⟩⟩
    refine yields_modify_bind.mpr (yields_bind.mpr
      ⟨_, v, hbound, (yields_mark rfl (by decide)).mpr ⟨r8, by rw [hrest]; exact harrow, ?_⟩⟩)
    refine yields_bind.mpr ⟨_, _, yields_typeExpr.mpr ⟨g.result, ty, rest, hw, hty, rfl, rfl⟩, ?_⟩
    rw [yields_get_bind, yields_pure]
    refine ⟨?_, by rw [ParserState.keeping_facing, ParserState.facing_facing]⟩
    simp only [Statement.state, ParserState.tags_facing, ParserState.tags_keeping, htags, hctx, hattrs,
      Content.physical, List.map_map, Function.comp_def, ParserState.context_facing, Statement.uses,
      TypeContext.keepAll, List.map_cons, List.map_nil]
  · simp [hblock, Statement.uses]
  · simp [hctx, Statement.context, TypeContext.keepAll]

end Parser

end GateAsm
