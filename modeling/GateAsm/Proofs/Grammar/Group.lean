import GateAsm.Proofs.Grammar.Binding
import GateAsm.Proofs.Grammar.Operands

/-!
# The grammar of instructions in the generic form

Behind the mnemonic stand an angle, operands, tags, the types of the operands and those of the results;
each part may be missing. A part is read whenever the next token could start it, so that an instruction
ends in front of a token that no further part starts with: `GroupSyntax.openers`.
-/

namespace GateAsm

structure GroupSyntax where
  angle : AngleSyntax
  operands : List OperandSyntax
  tags : Option (List (String × LiteralSyntax))
  types : List TypeSyntax
  results : List TypeSyntax

def firstKind (ws : List Word) (k : TokenKind) : TokenKind := (ws.head?.map Word.kind).getD k

@[simp]
theorem firstKind_nil (k : TokenKind) : firstKind [] k = k := rfl

@[simp]
theorem firstKind_cons (w : Word) (ws : List Word) (k : TokenKind) : firstKind (w :: ws) k = w.kind := rfl

theorem firstKind_append (ws vs : List Word) (k : TokenKind) :
    firstKind (ws ++ vs) k = firstKind ws (firstKind vs k) := by
  cases ws <;> rfl

theorem Splits.nextKind {ws : List Word} {ts rest : List Token} (h : Splits ws ts rest) :
    Parser.nextKind ts = firstKind ws (Parser.nextKind rest) := by
  cases ws with
  | nil => rw [Splits.nil_iff.mp h]; rfl
  | cons w ws => exact h.nextKind_eq rfl

namespace GroupSyntax

def operandWords (os : List OperandSyntax) : List Word := listed (os.map OperandSyntax.words)

def words (g : GroupSyntax) : List Word :=
  g.angle.words ++ (operandWords g.operands ++ (bracedWords g.tags ++
    (TypeSyntax.marked .colon g.types ++ TypeSyntax.marked .arrow g.results)))

/-- The kinds of tokens that would go on behind the last part that is there. -/
def openers (k : Kind) (g : GroupSyntax) : List TokenKind :=
  match g.results, g.types, g.tags with
  | _ :: _, _, _ => [.comma]
  | [], _ :: _, _ => [.arrow, .comma]
  | [], [], some _ => [.arrow, .colon]
  | [], [], none => [.arrow, .colon, .openBrace] ++ operandOpeners k.operandSlots g.operands ++
      (match k.rotation, g.angle, g.operands with
        | true, .absent, [] => [.openParen]
        | _, _, _ => [])

structure States (env : ParserEnv) (k : Kind) (g : GroupSyntax) (m : Statement) : Prop where
  rotation : k.rotation = false → g.angle = .absent
  slots : SlotsAllow k.operandSlots g.operands
  least : k.leastOperands ≤ g.operands.length
  content : ∃ a fs, g.angle.angle? env.allowMissingAngle = some a ∧
    OperandSyntax.fillers? g.operands = some fs ∧ m.content = ⟨.generic a, fs⟩
  tags : tagValues? (g.tags.getD []) = some m.tags
  own : Addable k.structuralTags [] m.tags
  types : TypeSyntax.tys? env.registry g.types = some m.types
  count : m.types.length = m.content.mains.length
  results : TypeSyntax.tys? env.registry g.results = some m.results

theorem operandOpeners_subset {ss : List Slot} {os : List OperandSyntax} :
    ∀ k ∈ operandOpeners ss os, k = .valueName ∨ k = .comma ∨ k = .openBracket := by
  induction os generalizing ss with
  | nil => cases ss <;> simp [operandOpeners]
  | cons o os ih =>
    cases ss with
    | nil => simp [operandOpeners]
    | cons s ss =>
      cases os with
      | nil =>
        intro k hk
        simp only [operandOpeners, List.mem_cons] at hk
        rcases hk with rfl | hk
        · exact .inr (.inl rfl)
        · split at hk
          · exact .inr (.inr (by simpa using hk))
          · cases hk
      | cons o' os => exact ih

theorem firstKind_operands (os : List OperandSyntax) (k : TokenKind) :
    firstKind (operandWords os) k = if os = [] then k else .valueName := by
  cases os with
  | nil => rfl
  | cons o os => simp [operandWords, listed_cons, OperandSyntax.words]

theorem firstKind_braced (tags : Option (List (String × LiteralSyntax))) (k : TokenKind) :
    firstKind (bracedWords tags) k = if tags = none then k else .openBrace := by
  cases tags <;> simp [bracedWords]

theorem firstKind_marked (mark : TokenKind) (ws : List TypeSyntax) (k : TokenKind) :
    firstKind (TypeSyntax.marked mark ws) k = if ws = [] then k else mark := by
  cases ws <;> simp [TypeSyntax.marked]

/-- What has to stand behind each part for the parser not to go on with it. -/
structure Closed (k : Kind) (g : GroupSyntax) (next : TokenKind) : Prop where
  angle : k.rotation = true → g.angle = .absent →
    firstKind (operandWords g.operands ++ (bracedWords g.tags ++
      (TypeSyntax.marked .colon g.types ++ TypeSyntax.marked .arrow g.results))) next ≠ .openParen
  operands : firstKind (bracedWords g.tags ++ (TypeSyntax.marked .colon g.types ++
    TypeSyntax.marked .arrow g.results)) next ∉ operandOpeners k.operandSlots g.operands
  tags : g.tags = none →
    firstKind (TypeSyntax.marked .colon g.types ++ TypeSyntax.marked .arrow g.results) next ≠ .openBrace
  types : firstKind (TypeSyntax.marked .arrow g.results) next ≠ TypeSyntax.next .colon g.types
  results : next ≠ TypeSyntax.next .arrow g.results

/-- No part goes on exactly if the next token does not open one that could come behind the last. -/
theorem closed_iff {k : Kind} {g : GroupSyntax} {next : TokenKind} : g.Closed k next ↔ next ∉ g.openers k := by
  have far : ∀ (ss : List Slot) (os : List OperandSyntax) (j : TokenKind),
      j ≠ .valueName → j ≠ .comma → j ≠ .openBracket → j ∉ operandOpeners ss os := by
    intro ss os j h1 h2 h3 hj
    rcases operandOpeners_subset j hj with h | h | h
    · exact h1 h
    · exact h2 h
    · exact h3 h
  have hc := far k.operandSlots g.operands .colon nofun nofun nofun
  have ha := far k.operandSlots g.operands .arrow nofun nofun nofun
  have hb := far k.operandSlots g.operands .openBrace nofun nofun nofun
  obtain ⟨angle, operands, tags, types, results⟩ := g
  have split : (Closed k ⟨angle, operands, tags, types, results⟩ next) ↔ _ ∧ _ ∧ _ ∧ _ ∧ _ :=
    ⟨fun h => ⟨h.angle, h.operands, h.tags, h.types, h.results⟩, fun h => ⟨h.1, h.2.1, h.2.2.1, h.2.2.2.1, h.2.2.2.2⟩⟩
  rw [split]
  simp only [firstKind_append, firstKind_operands, firstKind_braced, firstKind_marked, openers] at *
  cases results with
  | cons r rs =>
    cases types <;> cases tags <;> cases operands <;> simp_all [TypeSyntax.next]
  | nil =>
    cases types with
    | cons t ts => cases tags <;> cases operands <;> simp_all [TypeSyntax.next, and_comm]
    | nil =>
      cases tags with
      | some es => cases operands <;> simp_all [TypeSyntax.next, and_comm]
      | none =>
        cases operands with
        | cons o os => cases k.rotation <;> cases angle <;> simp_all [TypeSyntax.next] <;> grind
        | nil => cases hr : k.rotation <;> cases angle <;> simp_all [TypeSyntax.next] <;> grind

end GroupSyntax

/-! ## Operands in front of the tags -/

theorem length_of_given {ss : List Slot} {os : List SlotOperand} {fs : List (Filler String)} (h : Given ss os fs) :
    os.length = fs.length := by
  induction ss generalizing os fs with
  | nil => cases os <;> cases fs <;> first | rfl | cases h
  | cons s ss ih =>
    cases os <;> cases fs <;> try cases h
    · rfl
    · next hs => simpa using ih hs

theorem references_of_stands {a : Angle} {b : AngleOf String} (h : Parser.AngleStands a b) :
    a.references.map (·.name) = b.references := by
  cases a <;> cases b <;> first | rfl | cases h
  rfl

theorem tags_of_stands {a : Angle} {b : AngleOf String} (h : Parser.AngleStands a b) : a.tags = b.tags := by
  cases a <;> cases b <;> first | rfl | cases h
  rfl

theorem tags_of_given {ss : List Slot} {os : List SlotOperand} {fs : List (Filler String)} (h : Given ss os fs) :
    os.flatMap SlotOperand.tags ++ (ss.drop os.length).flatMap Slot.absentTags = slotTags ss fs := by
  induction ss generalizing os fs with
  | nil => cases os <;> cases fs <;> first | rfl | cases h
  | cons s ss ih =>
    cases os <;> cases fs <;> try cases h
    · have := ih (given_nil ss)
      simpa [slotTags, Slot.absentTags] using this
    · next o os f fs ho hs =>
      obtain ⟨rfl, -, hacc, -⟩ := ho
      have := ih hs
      simp [slotTags, SlotOperand.tags, hacc, ← this]

theorem sizes_of_given {ss : List Slot} {os : List SlotOperand} {fs : List (Filler String)} (h : Given ss os fs) :
    os.flatMap SlotOperand.sizes ++ (ss.drop os.length).flatMap Slot.absentSizes = slotSizes ss fs := by
  induction ss generalizing os fs with
  | nil => cases os <;> cases fs <;> first | rfl | cases h
  | cons s ss ih =>
    cases os <;> cases fs <;> try cases h
    · have := ih (given_nil ss)
      simpa [slotSizes] using this
    · next o os f fs ho hs =>
      obtain ⟨rfl, -, -, hrefs⟩ := ho
      have hlen : o.references.length = f.references.length := by rw [← hrefs, List.length_map]
      have := ih hs
      simp [slotSizes, SlotOperand.sizes, hlen, ← this]

theorem operands_of_given {ss : List Slot} {os : List SlotOperand} {fs : List (Filler String)} (h : Given ss os fs) :
    (os.flatMap SlotOperand.operands).map (fun x => (x.1.name, x.2)) =
      fs.flatMap fun f => (f.main, false) :: f.references.map (·, true) := by
  induction ss generalizing os fs with
  | nil => cases os <;> cases fs <;> first | rfl | cases h
  | cons s ss ih =>
    cases os <;> cases fs <;> try cases h
    · rfl
    · next o os f fs ho hs =>
      obtain ⟨-, hmain, -, hrefs⟩ := ho
      have := ih hs
      simp only [List.flatMap_cons, List.map_append, this]
      simp [SlotOperand.operands, hmain, ← hrefs, Function.comp_def]

theorem structuralAttrs_eq {k : Kind} {a : Angle} {given : List SlotOperand} {b : AngleOf String}
    {fs : List (Filler String)} (hk : k.Valid) (ha : Parser.AngleStands a b) (hg : Given k.operandSlots given fs) :
    Parser.structuralAttrs k a given = (Content.mk (.generic b) fs).structural k := by
  have distinct := Content.nodup_structural (c := Content.mk (.generic b) fs) hk
  have put : ((Content.mk (.generic b) fs).structural k).foldl
      (fun tags (e : String × Attr) => Attr.put e.1 e.2 tags) [] = [] ++ (Content.mk (.generic b) fs).structural k :=
    Attr.foldl_put ⟨distinct, fun _ _ => ⟨by simp, by simp⟩⟩
  have hlen : a.references.length = b.references.length := by rw [← references_of_stands ha, List.length_map]
  simp only [Parser.structuralAttrs, hlen, tags_of_stands ha, tags_of_given hg, sizes_of_given hg]
  exact put

theorem physicalOperands_eq {ss : List Slot} {a : Angle} {given : List SlotOperand} {b : AngleOf String}
    {fs : List (Filler String)} (ha : Parser.AngleStands a b) (hg : Given ss given fs) :
    (Parser.physicalOperands a given).map (fun x => (x.1.name, x.2)) = (Content.mk (.generic b) fs).flagged := by
  simp only [Parser.physicalOperands, Content.flagged, List.map_append, operands_of_given hg,
    ← references_of_stands ha, List.map_map]
  rfl

namespace Parser

variable {env : ParserEnv} {kind : Kind} {s t : ParserState}

theorem operandList_sound {given : List SlotOperand} (h : Yields (operandList kind) s given t) :
    ∃ os fs rest, Splits (GroupSyntax.operandWords os) s.rest rest ∧ OperandSyntax.fillers? os = some fs ∧
      SlotsAllow kind.operandSlots os ∧ nextKind rest ∉ operandOpeners kind.operandSlots os ∧
      Given kind.operandSlots given fs ∧ t = s.facing rest := by
  obtain ⟨o, u, ho, hrest⟩ := yields_bind.mp h
  rcases yields_optionalOperand.mp ho with ⟨x, ts, hr, hk, rfl, rfl⟩ | ⟨hn, rfl, rfl⟩
  · obtain ⟨o, os, fs, rest, hname, hs, hfs, hallow, hn, hgiven, rfl⟩ := slotOperands_sound hrest
    refine ⟨o :: os, fs, rest, ?_, hfs, hallow, hn, hgiven, rfl⟩
    have hx : Splits [⟨.valueName, o.name⟩] s.rest ts := (splits_single rfl).mpr ⟨x, hr, hk, hname.symm⟩
    have := hx.append hs
    simpa [GroupSyntax.operandWords, listed_cons, OperandSyntax.words] using this
  · obtain ⟨rfl, rfl⟩ := yields_pure.mp hrest
    refine ⟨[], [], t.rest, Splits.nil_iff.mpr rfl, rfl, by cases kind.operandSlots <;> trivial, ?_, given_nil _, rfl⟩
    cases kind.operandSlots <;> simpa [operandOpeners] using hn

theorem operandList_complete {os : List OperandSyntax} {fs : List (Filler String)} {rest : List Token}
    (hs : Splits (GroupSyntax.operandWords os) s.rest rest) (hfs : OperandSyntax.fillers? os = some fs)
    (ha : SlotsAllow kind.operandSlots os) (hn : nextKind rest ∉ operandOpeners kind.operandSlots os) :
    ∃ given, Yields (operandList kind) s given (s.facing rest) ∧ Given kind.operandSlots given fs := by
  cases os with
  | nil =>
    cases hfs
    obtain rfl := Splits.nil_iff.mp hs
    refine ⟨[], yields_bind.mpr ⟨none, s, yields_optionalOperand.mpr (.inr ⟨?_, rfl, rfl⟩), yields_pure.mpr ⟨rfl, rfl⟩⟩,
      given_nil _⟩
    cases hslots : kind.operandSlots <;> simpa [hslots, operandOpeners] using hn
  | cons o os =>
    have hsplit : Splits ([⟨.valueName, o.name⟩] ++ (OperandSyntax.accessorWords o.parts ++
        (os.map OperandSyntax.words).flatMap (.mark .comma :: ·))) s.rest rest := by
      simpa [GroupSyntax.operandWords, listed_cons, OperandSyntax.words] using hs
    obtain ⟨us, hv, htail⟩ := Splits.append_iff.mp hsplit
    obtain ⟨x, hr, hk, hx⟩ := (splits_single rfl).mp hv
    obtain ⟨given, hg, hgiven⟩ : ∃ given, Yields (slotOperands kind kind.operandSlots ⟨x.text, x.location⟩)
        (s.facing us) given (s.facing rest) ∧ Given kind.operandSlots given fs :=
      slotOperands_complete hx.symm htail hfs ha hn
    exact ⟨given, yields_bind.mpr ⟨some _, _, yields_optionalOperand.mpr (.inl ⟨x, us, hr, hk, rfl, rfl⟩), hg⟩, hgiven⟩

/-- References in the text may stand in it: no value name starts like that of an anonymous value. -/
def VisibleTokens (ts : List Token) : Prop := ∀ t ∈ ts, t.kind = .valueName → Block.Visible t.text

theorem VisibleTokens.sublist {ts us : List Token} (h : VisibleTokens ts) (hs : us.Sublist ts) : VisibleTokens us :=
  fun t ht => h t (hs.subset ht)

theorem VisibleTokens.of_splits {ws : List Word} {ts rest : List Token} {n : String} (h : VisibleTokens ts)
    (hs : Splits ws ts rest) (hn : ⟨.valueName, n⟩ ∈ ws) : Block.Visible n := by
  obtain ⟨used, rfl, rfl⟩ := hs
  obtain ⟨x, hx, he⟩ := List.mem_map.mp hn
  obtain ⟨hk, rfl⟩ := (Token.word_eq_iff rfl).mp he
  exact h x (List.mem_append_left _ hx) hk

theorem parts_words {ws : List PartSyntax} {ps : List (Part String)} {n : String}
    (hp : PartSyntax.parts? ws = some ps) (hn : n ∈ ps.filterMap Part.reference?) :
    ⟨.valueName, n⟩ ∈ listed (ws.map fun p => [p.word]) := by
  suffices h : PartSyntax.reference n ∈ ws from
    mem_listed (List.mem_map.mpr ⟨_, h, rfl⟩) (by simp [PartSyntax.word])
  induction ws generalizing ps with
  | nil => cases hp; cases hn
  | cons w ws ih =>
    obtain ⟨p, qs, h1, hq, rfl⟩ := PartSyntax.parts?_cons_iff.mp hp
    obtain ⟨x, hx, he⟩ := List.mem_filterMap.mp hn
    rcases List.mem_cons.mp hx with rfl | hx
    · cases w with
      | reference m => cases h1; cases he; exact List.mem_cons_self
      | int d =>
        obtain ⟨y, -, rfl⟩ := Option.map_eq_some_iff.mp h1
        cases he
    · exact List.mem_cons_of_mem _ (ih hq (List.mem_filterMap.mpr ⟨x, hx, he⟩))

theorem filler_words {o : OperandSyntax} {f : Filler String} {n : String} (hf : o.filler? = some f)
    (hn : n = f.main ∨ n ∈ f.references) : ⟨.valueName, n⟩ ∈ o.words := by
  obtain ⟨hp, -, hname⟩ := OperandSyntax.filler?_eq_some_iff.mp hf
  rcases hn with rfl | hn
  · rw [OperandSyntax.words, hname]; exact List.mem_cons_self
  · refine List.mem_cons_of_mem _ ?_
    obtain ⟨name, parts⟩ := o
    cases parts with
    | none => cases hp' : f.parts <;> simp_all [PartSyntax.parts?, Filler.references]
    | some ws =>
      simp only [OperandSyntax.accessorWords, List.mem_cons, List.mem_append]
      exact .inr (.inl (parts_words hp hn))

theorem fillers_words {os : List OperandSyntax} {fs : List (Filler String)} {f : Filler String} {n : String}
    (hfs : OperandSyntax.fillers? os = some fs) (hf : f ∈ fs) (hn : n = f.main ∨ n ∈ f.references) :
    ∃ o ∈ os, ⟨.valueName, n⟩ ∈ o.words := by
  induction os generalizing fs with
  | nil => cases hfs; cases hf
  | cons o os ih =>
    obtain ⟨g, gs, hg, hgs, rfl⟩ := OperandSyntax.fillers?_cons_iff.mp hfs
    rcases List.mem_cons.mp hf with rfl | hf
    · exact ⟨o, List.mem_cons_self, filler_words hg hn⟩
    · obtain ⟨o', ho', h⟩ := ih hgs hf
      exact ⟨o', List.mem_cons_of_mem _ ho', h⟩

theorem physical_words {w : AngleSyntax} {os : List OperandSyntax} {a : AngleOf String} {fs : List (Filler String)}
    {allow : Bool} {n : String} (ha : w.angle? allow = some a) (hfs : OperandSyntax.fillers? os = some fs)
    (hn : n ∈ (Content.mk (.generic a) fs).physical) :
    ⟨.valueName, n⟩ ∈ w.words ∨ ⟨.valueName, n⟩ ∈ GroupSyntax.operandWords os := by
  obtain ⟨⟨n, flag⟩, hx, rfl⟩ := List.mem_map.mp hn
  rcases List.mem_append.mp hx with hx | hx
  · obtain ⟨m, hm, he⟩ := List.mem_map.mp hx
    cases he
    left
    cases w with
    | reference r => cases ha; cases hm with
      | head => simp [AngleSyntax.words, AngleSyntax.inside]
      | tail _ h => cases h
    | absent => cases ha; cases hm
    | empty => simp only [AngleSyntax.angle?] at ha; split at ha <;> cases ha; cases hm
    | float d => obtain ⟨x, -, rfl⟩ := Option.map_eq_some_iff.mp ha; cases hm
    | int d => obtain ⟨x, -, rfl⟩ := Option.map_eq_some_iff.mp ha; cases hm
  · obtain ⟨f, hf, hx⟩ := List.mem_flatMap.mp hx
    have hnf : n = f.main ∨ n ∈ f.references := by
      rcases List.mem_cons.mp hx with he | hx
      · cases he; exact .inl rfl
      · obtain ⟨m, hm, he⟩ := List.mem_map.mp hx
        cases he; exact .inr hm
    obtain ⟨o, ho, h⟩ := fillers_words hfs hf hnf
    exact .inr (mem_listed (List.mem_map.mpr ⟨o, ho, rfl⟩) h)

theorem visible_flagged {c : Content String} (h : ∀ n ∈ c.physical, Block.Visible n) :
    ∀ o ∈ c.flagged, Block.Visible o.1 :=
  fun _ ho => h _ (List.mem_map_of_mem ho)

/-- The angle and the operands that are read from the state are written as `wa` and `os`, and come to a content. -/
structure GroupFront (env : ParserEnv) (kind : Kind) (s : ParserState) (found : Angle) (given : List SlotOperand)
    (t : ParserState) (wa : AngleSyntax) (os : List OperandSyntax) (a : AngleOf String) (fs : List (Filler String)) :
    Prop where
  words : ∃ mid, Splits wa.words s.rest mid ∧ Splits (GroupSyntax.operandWords os) mid t.rest ∧
    (kind.rotation = true → wa = .absent → nextKind mid ≠ .openParen)
  next : nextKind t.rest ∉ operandOpeners kind.operandSlots os
  rotation : kind.rotation = false → wa = .absent
  slots : SlotsAllow kind.operandSlots os
  least : kind.leastOperands ≤ os.length
  angle : wa.angle? env.allowMissingAngle = some a
  fillers : OperandSyntax.fillers? os = some fs
  stands : AngleStands found a
  given : Given kind.operandSlots given fs
  fits : (Content.mk (.generic a) fs).Fits kind
  visible : ∀ n ∈ (Content.mk (.generic a) fs).physical, Block.Visible n
  block : t.block = s.block
  context : t.context = s.context

section
variable {wa : AngleSyntax} {os : List OperandSyntax} {a : AngleOf String} {fs : List (Filler String)}
    {mid rest : List Token}
  (hangle : wa.angle? env.allowMissingAngle = some a) (hfs : OperandSyntax.fillers? os = some fs)
include hangle hfs

theorem fits_of_written (hcall : kind.callForm = false) (hrot : kind.rotation = false → wa = .absent)
    (hslots : SlotsAllow kind.operandSlots os) (hleast : kind.leastOperands ≤ os.length) :
    (Content.mk (.generic a) fs).Fits kind := by
  refine ⟨hcall, fun hr => ?_, fillSlots_of_fillers? hslots hfs, ?_⟩
  · rw [hrot hr] at hangle
    exact (Option.some.inj hangle).symm
  · rw [OperandSyntax.length_fillers? hfs]; exact hleast

theorem visible_of_written (hv : VisibleTokens s.rest) (hs : Splits wa.words s.rest mid)
    (hs' : Splits (GroupSyntax.operandWords os) mid rest) :
    ∀ n ∈ (Content.mk (.generic a) fs).physical, Block.Visible n := by
  intro n hn
  rcases physical_words hangle hfs hn with hw | hw
  · exact hv.of_splits hs hw
  · exact (hv.sublist hs.sublist).of_splits hs' hw

theorem groupFront_complete (hcall : kind.callForm = false) (hv : VisibleTokens s.rest)
    (hs : Splits wa.words s.rest mid)
    (hs' : Splits (GroupSyntax.operandWords os) mid rest) (hrot : kind.rotation = false → wa = .absent)
    (hslots : SlotsAllow kind.operandSlots os) (hleast : kind.leastOperands ≤ os.length)
    (hopen : kind.rotation = true → wa = .absent → nextKind mid ≠ .openParen)
    (hnext : nextKind rest ∉ operandOpeners kind.operandSlots os) :
    ∃ found given u, Yields (optionalAngle env kind) s found u ∧ Yields (operandList kind) u given (u.facing rest) ∧
      GroupFront env kind s found given (u.facing rest) wa os a fs := by
  obtain ⟨found, u, hfound, hstand, hmoved⟩ := optionalAngle_complete hs hangle hrot hopen
  obtain ⟨given, hgiven, hg⟩ := operandList_complete (s := u) (by rw [hmoved.rest]; exact hs') hfs hslots hnext
  exact ⟨found, given, u, hfound, hgiven, ⟨mid, hs, hs', hopen⟩, hnext, hrot, hslots, hleast, hangle, hfs, hstand, hg,
    fits_of_written hangle hfs hcall hrot hslots hleast, visible_of_written hangle hfs hv hs hs', hmoved.block,
    hmoved.context⟩

end

theorem groupFront_sound {found : Angle} {given : List SlotOperand} {u : ParserState} (hcall : kind.callForm = false)
    (hv : VisibleTokens s.rest) (hfound : Yields (optionalAngle env kind) s found u)
    (hgiven : Yields (operandList kind) u given t) (hleast : kind.leastOperands ≤ given.length) :
    ∃ wa os a fs, GroupFront env kind s found given t wa os a fs := by
  obtain ⟨wa, a, r1, hs1, hangle, hrot, hopen1, hstand, hmoved⟩ := optionalAngle_sound hfound
  obtain ⟨os, fs, r2, hs2, hfs, hallow, hopen2, hg, rfl⟩ := operandList_sound hgiven
  have hs2' : Splits (GroupSyntax.operandWords os) r1 r2 := by rw [← hmoved.rest]; exact hs2
  have hleast' : kind.leastOperands ≤ os.length := by
    rw [← OperandSyntax.length_fillers? hfs, ← length_of_given hg]; exact hleast
  exact ⟨wa, os, a, fs, ⟨r1, hs1, hs2', hopen1⟩, hopen2, hrot, hallow, hleast', hangle, hfs, hstand, hg,
    fits_of_written hangle hfs hcall hrot hallow hleast', visible_of_written hangle hfs hv hs1 hs2', hmoved.block,
    hmoved.context⟩

/-- What the parser of the generic form reads is written in the form, and comes to a statement whose
operands are consistent. -/
theorem operandGroup_sound {st : OperationState} (hk : kind.Valid) (hcall : kind.callForm = false)
    (hb : s.block.WellScoped) (hv : VisibleTokens s.rest) (h : Yields (operandGroup env kind) s st t) :
    ∃ g m, Splits (GroupSyntax.words g) s.rest t.rest ∧ nextKind t.rest ∉ g.openers kind ∧ g.States env kind m ∧
      s.block.Consistent (m.uses s.context) ∧ st = m.state s.context kind t.block ∧
      t.block = s.block.mentionAll (m.uses s.context) ∧ t.context = m.context s.context := by
  unfold operandGroup at h
  obtain ⟨found, u, hfound, h⟩ := yields_bind.mp h
  rw [yields_location_bind] at h
  obtain ⟨given, u2, hgiven, h⟩ := yields_bind.mp h
  rw [yields_require_bind, yields_modify_bind] at h
  obtain ⟨hleast, h⟩ := h
  obtain ⟨ids, u3, hids, h⟩ := yields_bind.mp h
  obtain ⟨results, u4, hresults, h⟩ := yields_bind.mp h
  rw [yields_get_bind, yields_pure] at h
  obtain ⟨rfl, rfl⟩ := h
  obtain ⟨wa, os, a, fs, front⟩ := groupFront_sound hcall hv hfound hgiven (by simpa using hleast)
  obtain ⟨r1, hs1, hs2, hopen1⟩ := front.words
  have hreserved := Content.structural_reserved front.fits
  obtain ⟨es, user, ws, types, r3, hs3, hs4, huser, hown, hopen3, htys, hopen4, hcount, hcons, rfl, hblock, hctx,
    htags⟩ := boundOperands_sound (physicalOperands_eq front.stands front.given) (by simpa [front.block] using hb)
      (visible_flagged front.visible) hids
  obtain ⟨rs, res, r5, hs5, hres, hopen5, rfl, rfl⟩ := yields_arrowTypes.mp hresults
  simp only [ParserState.block_facing, ParserState.context_facing, ParserState.tags_facing,
    ParserState.rest_facing, ParserState.block_keepingAll, ParserState.context_keepingAll,
    ParserState.tags_keepingAll, structuralAttrs_eq hk front.stands front.given, front.block, front.context] at *
  refine ⟨⟨wa, os, es, ws, rs⟩, ⟨⟨.generic a, fs⟩, types, user, res⟩, ?_, ?_, ?_, hcons, ?_, hblock, ?_⟩
  · exact hs1.append (hs2.append (hs3.append (hs4.append hs5)))
  · refine GroupSyntax.closed_iff.mp ⟨fun hr ha => ?_, ?_, fun he => ?_, ?_, hopen5⟩
    · rw [← (hs2.append (hs3.append (hs4.append hs5))).nextKind]; exact hopen1 hr ha
    · rw [← (hs3.append (hs4.append hs5)).nextKind]; exact front.next
    · rw [← (hs4.append hs5).nextKind]; exact hopen3 he
    · rw [← hs5.nextKind]; exact hopen4
  · refine ⟨front.rotation, front.slots, front.least, ⟨a, fs, front.angle, front.fillers, rfl⟩, huser, ?_,
      htys, ?_, hres⟩
    · exact (addable_reserved_iff hreserved).mp hown
    · rw [hcount, Content.mains_eq_filter, List.length_map]
  · simp only [Statement.state, htags, hctx, Content.physical, List.map_map, Function.comp_def]
  · rw [hctx]; rfl

/-- What is written in the generic form is read, if its operands are consistent and no part goes on. -/
theorem operandGroup_complete {g : GroupSyntax} {m : Statement} {rest : List Token} (hk : kind.Valid)
    (hcall : kind.callForm = false) (hb : s.block.WellScoped) (hv : VisibleTokens s.rest)
    (hs : Splits g.words s.rest rest) (hopen : nextKind rest ∉ g.openers kind) (hm : g.States env kind m)
    (hcons : s.block.Consistent (m.uses s.context)) :
    ∃ t, Yields (operandGroup env kind) s (m.state s.context kind (s.block.mentionAll (m.uses s.context))) t ∧
      t.rest = rest ∧ t.block = s.block.mentionAll (m.uses s.context) ∧ t.context = m.context s.context := by
  obtain ⟨a, fs, hangle, hfs, hcontent⟩ := hm.content
  obtain ⟨content, types, user, res⟩ := m
  subst hcontent
  -- the tokens behind the angle, the operands, the tags and the types of operands
  obtain ⟨r1, hs1, hlater⟩ := Splits.append_iff.mp hs
  obtain ⟨r2, hs2, hlater2⟩ := Splits.append_iff.mp hlater
  obtain ⟨r3, hs3, hlater3⟩ := Splits.append_iff.mp hlater2
  obtain ⟨r4, hs4, hs5⟩ := Splits.append_iff.mp hlater3
  have hclosed := GroupSyntax.closed_iff.mpr hopen
  obtain ⟨found, given, u, hfound, hgiven, front⟩ := groupFront_complete hangle hfs hcall hv hs1 hs2
    hm.rotation hm.slots hm.least (fun hr ha => by rw [hlater.nextKind]; exact hclosed.angle hr ha)
    (by rw [hlater2.nextKind]; exact hclosed.operands)
  have hblocks : u.block = s.block := front.block
  have hcontexts : u.context = s.context := front.context
  have hattrs := structuralAttrs_eq hk front.stands front.given
  -- structural tags are set first, so the user can have none of them
  have hreserved := Content.structural_reserved front.fits
  obtain ⟨v, hbound, hrest, hblock, hctx, htags⟩ : ∃ v, Yields (boundOperands env kind (physicalOperands found given))
      ((u.facing r2).withTags (structuralAttrs kind found given)) ((Content.mk (.generic a) fs).flagged.map fun o =>
        (((u.facing r2).block.mentionAll
          (typedUses u.context (Content.mk (.generic a) fs).flagged types)).lookup o.1).getD 0) v ∧ v.rest = r4 ∧
      v.block = u.block.mentionAll (typedUses u.context (Content.mk (.generic a) fs).flagged types) ∧
      v.context = (indexAfter u.context types).2 ∧ v.tags = structuralAttrs kind found given ++ user := by
    refine boundOperands_complete (physicalOperands_eq front.stands front.given) (by simpa [hblocks] using hb)
      (visible_flagged front.visible) hs3 hs4 hm.tags ?_ (fun he => ?_) hm.types ?_ ?_ ?_
    · rw [ParserState.tags_withTags, hattrs]
      exact (addable_reserved_iff hreserved).mpr hm.own
    · rw [hlater3.nextKind]; exact hclosed.tags he
    · rw [hs5.nextKind]; exact hclosed.types
    · have := hm.count
      rwa [Content.mains_eq_filter, List.length_map] at this
    · simpa [hblocks, hcontexts, Statement.uses] using hcons
  refine ⟨(v.keepingAll res).facing rest, ?_, rfl, ?_, ?_⟩
  · unfold operandGroup
    refine yields_bind.mpr ⟨found, u, hfound, yields_location_bind.mpr (yields_bind.mpr ⟨given, _, hgiven, ?_⟩)⟩
    refine yields_require_bind.mpr ⟨?_, yields_modify_bind.mpr (yields_bind.mpr ⟨_, v, hbound, ?_⟩)⟩
    · rw [length_of_given front.given, OperandSyntax.length_fillers? hfs]; simpa using hm.least
    · refine yields_bind.mpr ⟨(v.context.keepAll res).1, _, yields_arrowTypes.mpr
        ⟨g.results, res, rest, by rw [hrest]; exact hs5, hm.results, hclosed.results, rfl, rfl⟩, ?_⟩
      rw [yields_get_bind, yields_pure]
      refine ⟨?_, rfl⟩
      simp only [Statement.state, ParserState.tags_facing, ParserState.tags_keepingAll, htags, hctx, hattrs,
        Content.physical, List.map_map, Function.comp_def, ParserState.block_facing, hblocks, hcontexts, Statement.uses]
  · simp [hblock, hblocks, hcontexts, Statement.uses]
  · simp [hctx, hcontexts, Statement.context]

/-! ## The language of the generic form -/

def flip : Kind := ⟨"quantum.x", [⟨"trgt", true, false⟩], false, false, ""⟩

def turn : Kind := ⟨"quantum.rx", [⟨"phi", false, false⟩, ⟨"trgt", true, false⟩], true, false, ""⟩

def zeros (n : Nat) : String := String.ofList (List.replicate n '0')

end Parser

end GateAsm
