import GateAsm.Proofs.Content
import GateAsm.Proofs.Grammar.Literal
import GateAsm.Proofs.Grammar.TypeExpr

/-!
# The grammar of operands

An operand is a reference, on a register with an accessor in brackets; a rotation angle stands in
parentheses. References carry their position in the text, so that each parser has two lemmas here:
what it reads is written in one of the forms, and each form is read.
-/

namespace GateAsm

inductive PartSyntax
  | int (digits : String)
  | reference (name : String)

structure OperandSyntax where
  name : String
  parts : Option (List PartSyntax)

namespace PartSyntax

def word : PartSyntax → Word
  | int d => ⟨.int, d⟩
  | reference n => ⟨.valueName, n⟩

def part? : PartSyntax → Option (Part String)
  | int d => ((intLiteral? d).filter fun n => InInt64 n).map .number
  | reference n => some (.reference n)

def parts? : List PartSyntax → Option (List (Part String))
  | [] => some []
  | w :: ws => w.part?.bind fun p => (parts? ws).map (p :: ·)

theorem parts?_cons_iff {w : PartSyntax} {ws : List PartSyntax} {ps : List (Part String)} :
    parts? (w :: ws) = some ps ↔ ∃ p qs, w.part? = some p ∧ parts? ws = some qs ∧ ps = p :: qs := by
  simp only [parts?, Option.bind_eq_some_iff, Option.map_eq_some_iff]
  constructor
  · rintro ⟨v, hv, us, hu, rfl⟩; exact ⟨v, us, hv, hu, rfl⟩
  · rintro ⟨v, us, hv, hu, rfl⟩; exact ⟨v, hv, us, hu, rfl⟩

theorem length_parts? {ws : List PartSyntax} {ps : List (Part String)} (h : parts? ws = some ps) :
    ps.length = ws.length := by
  induction ws generalizing ps with
  | nil => cases h; rfl
  | cons w ws ih =>
    obtain ⟨p, qs, -, hq, rfl⟩ := parts?_cons_iff.mp h
    simp [ih hq]

theorem legal_of_part? {w : PartSyntax} {p : Part String} (h : w.part? = some p) : p.component.Legal := by
  cases w with
  | int d =>
    obtain ⟨n, hn, rfl⟩ := Option.map_eq_some_iff.mp h
    have hin : InInt64 n := by simpa using (Option.filter_eq_some_iff.mp hn).2
    exact hin
  | reference n => cases h; trivial

theorem legal_of_parts? {ws : List PartSyntax} {ps : List (Part String)} (h : parts? ws = some ps) :
    ∀ p ∈ ps, p.component.Legal := by
  induction ws generalizing ps with
  | nil => cases h; simp
  | cons w ws ih =>
    obtain ⟨p, qs, hp, hq, rfl⟩ := parts?_cons_iff.mp h
    intro x hx
    rcases List.mem_cons.mp hx with rfl | hx
    · exact legal_of_part? hp
    · exact ih hq x hx

end PartSyntax

namespace OperandSyntax

def accessorWords : Option (List PartSyntax) → List Word
  | none => []
  | some ps => .mark .openBracket :: (listed (ps.map fun p => [p.word]) ++ [.mark .closeBracket])

def words (o : OperandSyntax) : List Word := ⟨.valueName, o.name⟩ :: accessorWords o.parts

def filler? (o : OperandSyntax) : Option (Filler String) :=
  (PartSyntax.parts? (o.parts.getD [])).bind fun ps => if ps.length ≤ 3 then some ⟨o.name, ps⟩ else none

def fillers? : List OperandSyntax → Option (List (Filler String))
  | [] => some []
  | o :: os => o.filler?.bind fun f => (fillers? os).map (f :: ·)

theorem fillers?_cons_iff {o : OperandSyntax} {os : List OperandSyntax} {fs : List (Filler String)} :
    fillers? (o :: os) = some fs ↔ ∃ f gs, o.filler? = some f ∧ fillers? os = some gs ∧ fs = f :: gs := by
  simp only [fillers?, Option.bind_eq_some_iff, Option.map_eq_some_iff]
  constructor
  · rintro ⟨v, hv, us, hu, rfl⟩; exact ⟨v, us, hv, hu, rfl⟩
  · rintro ⟨v, us, hv, hu, rfl⟩; exact ⟨v, hv, us, hu, rfl⟩

theorem length_fillers? {os : List OperandSyntax} {fs : List (Filler String)} (h : fillers? os = some fs) :
    fs.length = os.length := by
  induction os generalizing fs with
  | nil => cases h; rfl
  | cons o os ih =>
    obtain ⟨f, gs, -, hg, rfl⟩ := fillers?_cons_iff.mp h
    simp [ih hg]

theorem filler?_eq_some_iff {o : OperandSyntax} {f : Filler String} :
    o.filler? = some f ↔ PartSyntax.parts? (o.parts.getD []) = some f.parts ∧ f.parts.length ≤ 3 ∧ o.name = f.main := by
  simp only [filler?, Option.bind_eq_some_iff]
  constructor
  · rintro ⟨ps, hp, h⟩
    split at h
    · next hl => cases h; exact ⟨hp, hl, rfl⟩
    · cases h
  · rintro ⟨hp, hl, hn⟩
    exact ⟨f.parts, hp, by rw [if_pos hl, hn]⟩

theorem legal_of_filler? {o : OperandSyntax} {f : Filler String} (h : o.filler? = some f) : LegalParts f.parts := by
  obtain ⟨hp, hl, -⟩ := filler?_eq_some_iff.mp h
  exact ⟨hl, PartSyntax.legal_of_parts? hp⟩

end OperandSyntax

inductive AngleSyntax
  | absent
  | empty
  | float (digits : String)
  | int (digits : String)
  | reference (name : String)

namespace AngleSyntax

def inside : AngleSyntax → List Word
  | absent | empty => []
  | float d => [⟨.float, d⟩]
  | int d => [⟨.int, d⟩]
  | reference n => [⟨.valueName, n⟩]

def words : AngleSyntax → List Word
  | absent => []
  | w => .mark .openParen :: (w.inside ++ [.mark .closeParen])

/-- The angle that is written; empty parentheses are one only if they are let pass. -/
def angle? (allowMissing : Bool) : AngleSyntax → Option (AngleOf String)
  | absent => some .absent
  | empty => if allowMissing then some .absent else none
  | float d | int d => (floatLiteral? d).map .literal
  | reference n => some (.reference n)

end AngleSyntax

/-! ## Slots -/

/-- Operands as the slots allow them: brackets only on a register, and not more operands than slots. -/
def SlotsAllow : List Slot → List OperandSyntax → Prop
  | _, [] => True
  | [], _ :: _ => False
  | s :: ss, o :: os => (s.register = false → o.parts = none) ∧ SlotsAllow ss os

def operandOpeners : List Slot → List OperandSyntax → List TokenKind
  | _, [] => [.valueName]
  | [], _ :: _ => []
  | s :: _, [o] => .comma :: (if s.register && o.parts.isNone then [.openBracket] else [])
  | _ :: ss, _ :: o :: os => operandOpeners ss (o :: os)

theorem fillSlots_of_fillers? {ss : List Slot} {os : List OperandSyntax} {fs : List (Filler String)}
    (ha : SlotsAllow ss os) (hf : OperandSyntax.fillers? os = some fs) : FillSlots ss fs := by
  induction os generalizing ss fs with
  | nil => cases hf; cases ss <;> trivial
  | cons o os ih =>
    obtain ⟨f, gs, hf1, hg, rfl⟩ := OperandSyntax.fillers?_cons_iff.mp hf
    cases ss with
    | nil => cases ha
    | cons s ss =>
      refine ⟨⟨OperandSyntax.legal_of_filler? hf1, fun hs => ?_⟩, ih ha.2 hg⟩
      have hp := (OperandSyntax.filler?_eq_some_iff.mp hf1).1
      rw [ha.1 hs] at hp
      exact (Option.some.inj hp).symm

/-- What the parser keeps for the operands of slots stands for these fillers. -/
def Given : List Slot → List SlotOperand → List (Filler String) → Prop
  | _, [], [] => True
  | s :: ss, o :: os, f :: fs =>
    (o.slot = s ∧ o.main.name = f.main ∧ o.accessors = f.accessors ∧ o.references.map (·.name) = f.references) ∧
      Given ss os fs
  | _, _, _ => False

theorem given_nil (ss : List Slot) : Given ss [] [] := by
  cases ss <;> trivial

namespace Parser

variable {s t : ParserState}

/-! ## References -/

theorem yields_optionalOperand {o : Option Reference} :
    Yields optionalOperand s o t ↔
      (∃ x ts, s.rest = x :: ts ∧ x.kind = .valueName ∧ o = some ⟨x.text, x.location⟩ ∧ t = s.facing ts) ∨
      (nextKind s.rest ≠ .valueName ∧ o = none ∧ t = s) := by
  simp only [optionalOperand, yields_bind, yields_optional (k := .valueName) (by decide), yields_pure]
  constructor
  · rintro ⟨x, u, ⟨y, ts, hr, hy, rfl, rfl⟩ | ⟨hn, rfl, rfl⟩, rfl, rfl⟩
    · exact .inl ⟨y, ts, hr, hy, rfl, rfl⟩
    · exact .inr ⟨hn, rfl, rfl⟩
  · rintro (⟨y, ts, hr, hy, rfl, rfl⟩ | ⟨hn, rfl, rfl⟩)
    · exact ⟨some y, _, .inl ⟨y, ts, hr, hy, rfl, rfl⟩, rfl, rfl⟩
    · exact ⟨none, _, .inr ⟨hn, rfl, rfl⟩, rfl, rfl⟩

theorem yields_operand {r : Reference} :
    Yields operand s r t ↔
      ∃ x ts, s.rest = x :: ts ∧ x.kind = .valueName ∧ r = ⟨x.text, x.location⟩ ∧ t = s.facing ts := by
  simp only [operand, yields_bind, yields_expect (k := .valueName) (by decide), yields_pure]
  constructor
  · rintro ⟨x, u, ⟨ts, hr, hx, rfl⟩, rfl, rfl⟩; exact ⟨x, ts, hr, hx, rfl, rfl⟩
  · rintro ⟨x, ts, hr, hx, rfl, rfl⟩; exact ⟨x, _, ⟨ts, hr, hx, rfl⟩, rfl, rfl⟩

theorem splits_single {k : TokenKind} (hk : k.isVaried = true) {d : String} {ts rest : List Token} :
    Splits [⟨k, d⟩] ts rest ↔ ∃ x, ts = x :: rest ∧ x.kind = k ∧ x.text = d := by
  rw [Splits.cons_iff]
  constructor
  · rintro ⟨x, us, rfl, hx, h⟩
    exact ⟨x, by rw [Splits.nil_iff.mp h], (Token.word_eq_iff hk).mp hx⟩
  · rintro ⟨x, rfl, hx⟩
    exact ⟨x, rest, rfl, (Token.word_eq_iff hk).mpr hx, Splits.nil_iff.mpr rfl⟩

/-! ## Accessors -/

def Stands (x : Component × Option Reference) (p : Part String) : Prop :=
  x.1 = p.component ∧ x.2.map (·.name) = p.reference?

theorem component_sound {x : Component × Option Reference} (h : Yields component s x t) :
    ∃ w p rest, Splits [PartSyntax.word w] s.rest rest ∧ w.part? = some p ∧ Stands x p ∧ t = s.facing rest := by
  obtain ⟨o, u, ho, hx⟩ := yields_bind.mp h
  rcases yields_optionalOperand.mp ho with ⟨y, ts, hr, hy, rfl, rfl⟩ | ⟨hn, rfl, rfl⟩
  · obtain ⟨rfl, rfl⟩ := yields_pure.mp hx
    exact ⟨.reference y.text, .reference y.text, ts, (splits_single rfl).mpr ⟨y, hr, hy, rfl⟩, rfl, ⟨rfl, rfl⟩, rfl⟩
  · simp only [yields_peek_bind, yields_ite, yields_bind (p := fail _ _), yields_bind (p := integerOf _),
      yields_advance_bind, not_yields_fail, false_and, exists_false, and_false, false_or, or_false,
      yields_integerOf, yields_pure] at hx
    obtain ⟨hk, n, v, ⟨hint, rfl⟩, hin, rfl, rfl⟩ := hx
    cases hr : v.rest with
    | nil => simp [hr] at hk
    | cons y ts =>
      rw [ahead_of_rest hr] at hint hk
      refine ⟨.int y.text, .number n, ts, (splits_single rfl).mpr ⟨y, rfl, by simpa using hk, rfl⟩, ?_,
        ⟨rfl, rfl⟩, rfl⟩
      simp [PartSyntax.part?, hint, hin]

theorem component_complete {w : PartSyntax} {p : Part String} {rest : List Token}
    (hs : Splits [w.word] s.rest rest) (hp : w.part? = some p) :
    ∃ x, Yields component s x (s.facing rest) ∧ Stands x p := by
  cases w with
  | reference n =>
    cases hp
    obtain ⟨y, hr, hy, rfl⟩ := (splits_single rfl).mp hs
    refine ⟨(.dynamic, some ⟨y.text, y.location⟩), ?_, rfl, rfl⟩
    exact yields_bind.mpr ⟨_, _, yields_optionalOperand.mpr (.inl ⟨y, rest, hr, hy, rfl, rfl⟩),
      yields_pure.mpr ⟨rfl, rfl⟩⟩
  | int d =>
    obtain ⟨n, hn, rfl⟩ := Option.map_eq_some_iff.mp hp
    obtain ⟨hint, hin⟩ := Option.filter_eq_some_iff.mp hn
    obtain ⟨y, hr, hy, rfl⟩ := (splits_single rfl).mp hs
    refine ⟨(.constant n, none), ?_, rfl, rfl⟩
    refine yields_bind.mpr ⟨none, s, yields_optionalOperand.mpr (.inr ⟨?_, rfl, rfl⟩), ?_⟩
    · rw [hr, nextKind_cons, hy]; exact nofun
    · simp only [yields_peek_bind, yields_ite, yields_bind (p := fail _ _), yields_bind (p := integerOf _),
        yields_advance_bind, not_yields_fail, false_and, exists_false, and_false, false_or, or_false,
        yields_integerOf, yields_pure, ahead_of_rest hr]
      exact ⟨by simp [hy], n, s, ⟨hint, rfl⟩, by simpa using hin, rfl, by rw [hr]; rfl⟩

def StandAll (xs : List (Component × Option Reference)) (ps : List (Part String)) : Prop :=
  xs.map (·.1) = ps.map Part.component ∧ (xs.filterMap (·.2)).map (·.name) = ps.filterMap Part.reference?

theorem StandAll.cons {x : Component × Option Reference} {p : Part String}
    {xs : List (Component × Option Reference)} {ps : List (Part String)} (h : Stands x p) (hs : StandAll xs ps) :
    StandAll (x :: xs) (p :: ps) := by
  obtain ⟨c, r⟩ := x
  obtain ⟨rfl, hr⟩ := h
  refine ⟨by simp [hs.1], ?_⟩
  cases r with
  | none => simp only [Option.map_none] at hr; simp [← hr, hs.2]
  | some r => simp only [Option.map_some] at hr; simp [← hr, hs.2]

theorem components_sound {room : Nat} {xs : List (Component × Option Reference)} (hroom : 0 < room)
    (h : Yields (components room) s xs t) :
    ∃ w ws ps rest, Splits (listed ((w :: ws).map fun p => [PartSyntax.word p])) s.rest rest ∧
      PartSyntax.parts? (w :: ws) = some ps ∧ ps.length ≤ room ∧ StandAll xs ps ∧ t = s.facing rest := by
  induction room generalizing s t xs with
  | zero => cases hroom
  | succ room ih =>
    obtain ⟨x, u, hx, h⟩ := yields_bind.mp h
    obtain ⟨w, p, us, hs, hp, hxp, rfl⟩ := component_sound hx
    have alone : Yields (pure [x]) (s.facing us) xs t →
        ∃ w ws ps rest, Splits (listed ((w :: ws).map fun p => [PartSyntax.word p])) s.rest rest ∧
          PartSyntax.parts? (w :: ws) = some ps ∧ ps.length ≤ room + 1 ∧ StandAll xs ps ∧ t = s.facing rest := by
      intro h
      obtain ⟨rfl, rfl⟩ := yields_pure.mp h
      exact ⟨w, [], [p], us, by simpa [listed_cons] using hs, PartSyntax.parts?_cons_iff.mpr ⟨p, [], hp, rfl, rfl⟩,
        by simp, StandAll.cons hxp ⟨rfl, rfl⟩, rfl⟩
    rw [yields_ite] at h
    rcases h with ⟨-, h⟩ | ⟨hroom, h⟩
    · exact alone h
    · rcases (yields_unlessMark rfl (by decide)).mp h with ⟨vs, hc, h⟩ | ⟨-, h⟩
      · obtain ⟨ys, v, hy, h⟩ := yields_bind.mp h
        obtain ⟨rfl, rfl⟩ := yields_pure.mp h
        obtain ⟨w', ws, ps, rest, hs', hps, hl, hstand, rfl⟩ := ih (by omega) hy
        refine ⟨w, w' :: ws, p :: ps, rest, ?_, PartSyntax.parts?_cons_iff.mpr ⟨p, ps, hp, hps, rfl⟩,
          by simpa using hl, StandAll.cons hxp hstand, rfl⟩
        have := hs.append (hc.append hs')
        simpa [listed_cons] using this
      · exact alone h

theorem components_complete {room : Nat} {w : PartSyntax} {ws : List PartSyntax} {ps : List (Part String)}
    {rest : List Token} (hs : Splits (listed ((w :: ws).map fun p => [PartSyntax.word p])) s.rest rest)
    (hp : PartSyntax.parts? (w :: ws) = some ps) (hl : ps.length ≤ room)
    (hn : nextKind rest = .comma → ps.length = room) :
    ∃ xs, Yields (components room) s xs (s.facing rest) ∧ StandAll xs ps := by
  induction room generalizing s w ws ps with
  | zero =>
    obtain ⟨p, qs, -, -, rfl⟩ := PartSyntax.parts?_cons_iff.mp hp
    simp at hl
  | succ room ih =>
    obtain ⟨p, qs, hp1, hq, rfl⟩ := PartSyntax.parts?_cons_iff.mp hp
    obtain ⟨us, hw, hs⟩ := Splits.append_iff.mp hs
    obtain ⟨x, hx, hxp⟩ := component_complete hw hp1
    cases ws with
    | nil =>
      cases hq
      obtain rfl := Splits.nil_iff.mp hs
      refine ⟨[x], yields_bind.mpr ⟨x, _, hx, ?_⟩, StandAll.cons hxp ⟨rfl, rfl⟩⟩
      rw [yields_ite]
      by_cases hroom : room = 0
      · exact .inl ⟨hroom, yields_pure.mpr ⟨rfl, rfl⟩⟩
      · have ends : nextKind us ≠ .comma := fun hc => hroom (Nat.succ.inj (hn hc)).symm
        exact .inr ⟨hroom, (yields_unlessMark rfl (by decide)).mpr (.inr ⟨ends, yields_pure.mpr ⟨rfl, rfl⟩⟩)⟩
    | cons w' ws =>
      have hsplit : Splits ([Word.mark .comma] ++ listed ((w' :: ws).map fun p => [PartSyntax.word p])) us rest := by
        simpa [listed_cons] using hs
      obtain ⟨vs, hc, htail⟩ := Splits.append_iff.mp hsplit
      obtain ⟨ys, hy, hstand⟩ := ih (s := (s.facing us).facing vs) htail hq (by simpa using hl) (by simpa using hn)
      refine ⟨x :: ys, yields_bind.mpr ⟨x, _, hx, ?_⟩, StandAll.cons hxp hstand⟩
      have hroom : room ≠ 0 := by
        have := PartSyntax.length_parts? hq
        simp at hl this
        omega
      rw [yields_ite]
      refine .inr ⟨hroom, (yields_unlessMark rfl (by decide)).mpr (.inl ⟨vs, hc, ?_⟩)⟩
      exact yields_bind.mpr ⟨ys, _, hy, yields_pure.mpr ⟨rfl, rfl⟩⟩

def AccessorStands (x : Accessors × List Reference) (ps : List (Part String)) : Prop :=
  x.1 = accessorsOf ps ∧ x.2.map (·.name) = ps.filterMap Part.reference?

theorem accessorList_sound {x : Accessors × List Reference} (h : Yields accessorList s x t) :
    ∃ ps parts rest, Splits (OperandSyntax.accessorWords ps) s.rest rest ∧
      PartSyntax.parts? (ps.getD []) = some parts ∧ parts.length ≤ 3 ∧
      (ps = none → nextKind rest ≠ .openBracket) ∧ AccessorStands x parts ∧ t = s.facing rest := by
  rcases (yields_unlessMark rfl (by decide)).mp h with ⟨us, ho, h⟩ | ⟨hn, h⟩
  · rcases (yields_ifMark rfl (by decide)).mp h with ⟨vs, hc, h⟩ | ⟨-, h⟩
    · obtain ⟨rfl, rfl⟩ := yields_pure.mp h
      exact ⟨some [], [], vs, ho.append hc, rfl, by simp, nofun, ⟨rfl, rfl⟩, rfl⟩
    · obtain ⟨xs, u, hx, h⟩ := yields_bind.mp h
      obtain ⟨w, ws, ps, vs, hs, hp, hl, ⟨hcs, hrs⟩, rfl⟩ := components_sound (by decide) hx
      obtain ⟨rest, hc, h⟩ := (yields_mark rfl (by decide)).mp h
      obtain ⟨rfl, rfl⟩ := yields_pure.mp h
      refine ⟨some (w :: ws), ps, rest, ho.append (hs.append hc), hp, hl, nofun, ⟨?_, hrs⟩, rfl⟩
      rw [accessorsOf, ← hcs]
  · obtain ⟨rfl, rfl⟩ := yields_pure.mp h
    exact ⟨none, [], t.rest, Splits.nil_iff.mpr rfl, rfl, by simp, fun _ => hn, ⟨rfl, rfl⟩, rfl⟩

theorem accessorList_complete {ps : Option (List PartSyntax)} {parts : List (Part String)} {rest : List Token}
    (hs : Splits (OperandSyntax.accessorWords ps) s.rest rest) (hp : PartSyntax.parts? (ps.getD []) = some parts)
    (hl : parts.length ≤ 3) (hn : ps = none → nextKind rest ≠ .openBracket) :
    ∃ x, Yields accessorList s x (s.facing rest) ∧ AccessorStands x parts := by
  unfold accessorList
  cases ps with
  | none =>
    cases hp
    obtain rfl := Splits.nil_iff.mp hs
    exact ⟨(.empty, []), (yields_unlessMark rfl (by decide)).mpr (.inr ⟨hn rfl, yields_pure.mpr ⟨rfl, rfl⟩⟩), rfl, rfl⟩
  | some ws =>
    obtain ⟨us, ho, hs⟩ := Splits.first_iff.mp hs
    cases ws with
    | nil =>
      cases hp
      refine ⟨(.empty, []), (yields_unlessMark rfl (by decide)).mpr (.inl ⟨us, ho, ?_⟩), rfl, rfl⟩
      exact (yields_ifMark rfl (by decide)).mpr (.inl ⟨rest, hs, yields_pure.mpr ⟨rfl, rfl⟩⟩)
    | cons w ws =>
      obtain ⟨vs, hw, hc⟩ := Splits.append_iff.mp hs
      have hend : nextKind vs ≠ .comma := by rw [hc.nextKind_eq rfl]; exact nofun
      obtain ⟨xs, hx, hcs, hrs⟩ := components_complete (s := s.facing us) hw hp hl (absurd · hend)
      refine ⟨((Accessors.ofComponents? (xs.map (·.1))).getD .empty, xs.filterMap (·.2)), ?_, ?_, hrs⟩
      · refine (yields_unlessMark rfl (by decide)).mpr (.inl ⟨us, ho, ?_⟩)
        refine (yields_ifMark rfl (by decide)).mpr (.inr ⟨?_, yields_bind.mpr ⟨xs, _, hx, ?_⟩⟩)
        · obtain ⟨ys, hw', -⟩ := Splits.append_iff.mp hw
          rw [ParserState.rest_facing, hw'.nextKind_eq rfl]
          cases w <;> exact nofun
        · exact (yields_mark rfl (by decide)).mpr ⟨rest, hc, yields_pure.mpr ⟨rfl, rfl⟩⟩
      · rw [hcs, accessorsOf]

/-! ## Operands of slots -/

theorem slotAccessor_sound {slot : Slot} {x : Accessors × List Reference}
    (h : Yields (slotAccessor slot) s x t) :
    ∃ ps parts rest, Splits (OperandSyntax.accessorWords ps) s.rest rest ∧
      PartSyntax.parts? (ps.getD []) = some parts ∧ parts.length ≤ 3 ∧ (slot.register = false → ps = none) ∧
      (slot.register && ps.isNone → nextKind rest ≠ .openBracket) ∧ AccessorStands x parts ∧ t = s.facing rest := by
  rcases yields_ite.mp h with ⟨hr, h⟩ | ⟨hr, h⟩
  · obtain ⟨ps, parts, rest, hs, hp, hl, hn, hx, rfl⟩ := accessorList_sound h
    refine ⟨ps, parts, rest, hs, hp, hl, fun h => absurd (hr.symm.trans h) nofun, fun h => hn ?_, hx, rfl⟩
    simpa using (Bool.and_eq_true_iff.mp h).2
  · obtain ⟨rfl, rfl⟩ := yields_pure.mp h
    refine ⟨none, [], t.rest, Splits.nil_iff.mpr rfl, rfl, by simp, fun _ => rfl, fun h => ?_, ⟨rfl, rfl⟩, rfl⟩
    exact absurd (Bool.and_eq_true_iff.mp h).1 hr

theorem slotAccessor_complete {slot : Slot} {ps : Option (List PartSyntax)} {parts : List (Part String)}
    {rest : List Token} (hs : Splits (OperandSyntax.accessorWords ps) s.rest rest)
    (hp : PartSyntax.parts? (ps.getD []) = some parts) (hl : parts.length ≤ 3)
    (hslot : slot.register = false → ps = none) (hn : slot.register && ps.isNone → nextKind rest ≠ .openBracket) :
    ∃ x, Yields (slotAccessor slot) s x (s.facing rest) ∧
      AccessorStands x parts := by
  cases hr : slot.register with
  | true =>
    obtain ⟨x, hx, hstand⟩ := accessorList_complete hs hp hl (fun h => hn (by rw [hr, h]; rfl))
    exact ⟨x, yields_ite.mpr (.inl ⟨hr, hx⟩), hstand⟩
  | false =>
    obtain rfl := hslot hr
    cases hp
    obtain rfl := Splits.nil_iff.mp hs
    exact ⟨(.empty, []), yields_ite.mpr (.inr ⟨by simp [hr], yields_pure.mpr ⟨rfl, rfl⟩⟩), rfl, rfl⟩

theorem slotOperands_sound {kind : Kind} {slots : List Slot} {r : Reference} {given : List SlotOperand}
    (h : Yields (slotOperands kind slots r) s given t) :
    ∃ o os fs rest, o.name = r.name ∧
      Splits (OperandSyntax.accessorWords o.parts ++ (os.map OperandSyntax.words).flatMap (.mark .comma :: ·))
        s.rest rest ∧
      OperandSyntax.fillers? (o :: os) = some fs ∧ SlotsAllow slots (o :: os) ∧
      nextKind rest ∉ operandOpeners slots (o :: os) ∧ Given slots given fs ∧ t = s.facing rest := by
  induction slots generalizing s t r given with
  | nil => exact absurd h not_yields_fail
  | cons slot slots ih =>
    obtain ⟨⟨a, refs⟩, u, hx, h⟩ := yields_bind.mp h
    obtain ⟨ps, parts, us, hs, hp, hl, hslot, hopen, ⟨rfl, hrefs⟩, rfl⟩ := slotAccessor_sound hx
    have hf : OperandSyntax.filler? ⟨r.name, ps⟩ = some ⟨r.name, parts⟩ :=
      OperandSyntax.filler?_eq_some_iff.mpr ⟨hp, hl, rfl⟩
    rcases (yields_unlessMark rfl (by decide)).mp h with ⟨vs, hc, h⟩ | ⟨hn, h⟩
    · obtain ⟨next, v, hnext, h⟩ := yields_bind.mp h
      obtain ⟨x, ws, hr, hk, rfl, rfl⟩ := yields_operand.mp hnext
      obtain ⟨others, v, hothers, h⟩ := yields_bind.mp h
      obtain ⟨rfl, rfl⟩ := yields_pure.mp h
      obtain ⟨o, os, fs, rest, ho, hs', hfs, hallow, hn, hgiven, rfl⟩ := ih hothers
      refine ⟨⟨r.name, ps⟩, o :: os, ⟨r.name, parts⟩ :: fs, rest, rfl, ?_,
        OperandSyntax.fillers?_cons_iff.mpr ⟨_, fs, hf, hfs, rfl⟩, ⟨hslot, hallow⟩, hn,
        ⟨⟨rfl, rfl, rfl, hrefs⟩, hgiven⟩, rfl⟩
      have hname : Splits [⟨.valueName, o.name⟩] vs ws := (splits_single rfl).mpr ⟨x, hr, hk, ho.symm⟩
      have := hs.append (hc.append (hname.append hs'))
      simpa [OperandSyntax.words] using this
    · obtain ⟨rfl, rfl⟩ := yields_pure.mp h
      refine ⟨⟨r.name, ps⟩, [], [⟨r.name, parts⟩], us, rfl, by simpa using hs,
        OperandSyntax.fillers?_cons_iff.mpr ⟨_, [], hf, rfl, rfl⟩, ⟨hslot, by cases slots <;> trivial⟩, ?_,
        ⟨⟨rfl, rfl, rfl, hrefs⟩, given_nil _⟩, rfl⟩
      simp only [operandOpeners, List.mem_cons, not_or]
      refine ⟨hn, ?_⟩
      split
      · next hb => simpa using hopen hb
      · simp

theorem slotOperands_complete {kind : Kind} {slots : List Slot} {r : Reference} {o : OperandSyntax}
    {os : List OperandSyntax} {fs : List (Filler String)} {rest : List Token} (ho : o.name = r.name)
    (hs : Splits (OperandSyntax.accessorWords o.parts ++ (os.map OperandSyntax.words).flatMap (.mark .comma :: ·))
      s.rest rest)
    (hfs : OperandSyntax.fillers? (o :: os) = some fs) (ha : SlotsAllow slots (o :: os))
    (hn : nextKind rest ∉ operandOpeners slots (o :: os)) :
    ∃ given, Yields (slotOperands kind slots r) s given (s.facing rest) ∧ Given slots given fs := by
  induction slots generalizing s r o os fs with
  | nil => cases ha
  | cons slot slots ih =>
    obtain ⟨f, gs, hf, hg, rfl⟩ := OperandSyntax.fillers?_cons_iff.mp hfs
    obtain ⟨hp, hl, hname⟩ := OperandSyntax.filler?_eq_some_iff.mp hf
    obtain ⟨us, hacc, hmore⟩ := Splits.append_iff.mp hs
    cases os with
    | nil =>
      cases hg
      obtain rfl := Splits.nil_iff.mp hmore
      simp only [operandOpeners, List.mem_cons, not_or] at hn
      obtain ⟨⟨a, refs⟩, hx, rfl, hrefs⟩ := slotAccessor_complete hacc hp hl ha.1 (fun hb => by
        rw [if_pos hb] at hn; simpa using hn.2)
      refine ⟨[⟨slot, r, accessorsOf f.parts, refs⟩], yields_bind.mpr ⟨_, _, hx, ?_⟩,
        ⟨rfl, ho.symm.trans hname, rfl, hrefs⟩, given_nil _⟩
      exact (yields_unlessMark rfl (by decide)).mpr (.inr ⟨hn.1, yields_pure.mpr ⟨rfl, rfl⟩⟩)
    | cons o' os =>
      have hsplit : Splits ([Word.mark .comma] ++ ([⟨.valueName, o'.name⟩] ++
          (OperandSyntax.accessorWords o'.parts ++ (os.map OperandSyntax.words).flatMap (.mark .comma :: ·)))) us
          rest := by
        simpa [OperandSyntax.words] using hmore
      obtain ⟨vs, hc, htail⟩ := Splits.append_iff.mp hsplit
      obtain ⟨ws, hv, hlater⟩ := Splits.append_iff.mp htail
      obtain ⟨x, rfl, hk, hx⟩ := (splits_single rfl).mp hv
      obtain ⟨⟨a, refs⟩, hacc', rfl, hrefs⟩ := slotAccessor_complete hacc hp hl ha.1 (fun _ => by
        rw [hc.nextKind_eq rfl]; exact nofun)
      obtain ⟨others, hothers, hgiven⟩ := ih (s := s.facing ws) (r := ⟨x.text, x.location⟩) hx.symm hlater hg ha.2 hn
      refine ⟨⟨slot, r, accessorsOf f.parts, refs⟩ :: others, yields_bind.mpr ⟨_, _, hacc', ?_⟩,
        ⟨rfl, ho.symm.trans hname, rfl, hrefs⟩, hgiven⟩
      refine (yields_unlessMark rfl (by decide)).mpr (.inl ⟨_, hc, yields_bind.mpr ⟨_, _,
        yields_operand.mpr ⟨x, ws, rfl, hk, rfl, rfl⟩, ?_⟩⟩)
      exact yields_bind.mpr ⟨others, _, hothers, yields_pure.mpr ⟨rfl, rfl⟩⟩

/-! ## Rotation angles -/

def AngleStands : Angle → AngleOf String → Prop
  | .absent, .absent => True
  | .literal x, .literal y => x = y
  | .reference r, .reference n => r.name = n
  | _, _ => False

structure Moved (s : ParserState) (rest : List Token) (t : ParserState) : Prop where
  rest : t.rest = rest
  block : t.block = s.block
  context : t.context = s.context
  tags : t.tags = s.tags

theorem moved_facing (s : ParserState) (rest : List Token) : Moved s rest (s.facing rest) := ⟨rfl, rfl, rfl, rfl⟩

theorem yields_optionalFloat {o : Option Double} :
    Yields optionalFloat s o t ↔
      (∃ x ts d, s.rest = x :: ts ∧ (x.kind = .float ∨ x.kind = .int) ∧ floatLiteral? x.text = some d ∧ o = some d ∧
        t = s.facing ts) ∨
      ((nextKind s.rest ≠ .float ∧ nextKind s.rest ≠ .int) ∧ o = none ∧ t = s) := by
  simp only [optionalFloat, yields_peek_bind, yields_ite, yields_advance_bind, yields_bind (p := finiteFloat _),
    yields_finiteFloat, yields_pure]
  constructor
  · rintro (⟨hk, d, u, ⟨hd, rfl⟩, rfl, rfl⟩ | ⟨hk, rfl, rfl⟩)
    · cases hr : s.rest with
      | nil => simp [hr] at hk
      | cons x ts =>
        rw [ahead_of_rest hr] at hk hd
        exact .inl ⟨x, ts, d, rfl, by simpa using hk, hd, rfl, rfl⟩
    · exact .inr ⟨by simpa using hk, rfl, rfl⟩
  · rintro (⟨x, ts, d, hr, hk, hd, rfl, rfl⟩ | ⟨hk, rfl, rfl⟩)
    · rw [ahead_of_rest hr]
      exact .inl ⟨by simpa using hk, d, _, ⟨hd, rfl⟩, rfl, by rw [hr]; rfl⟩
    · exact .inr ⟨by simpa using hk, rfl, rfl⟩

theorem missingAngle_sound {env : ParserEnv} {kind : Kind} {a : Angle} (h : Yields (missingAngle env kind) s a t) :
    env.allowMissingAngle = true ∧ a = .absent ∧ Moved s s.rest t := by
  simp only [missingAngle, yields_location_bind, yields_ite, warn, record, yields_modify_bind, not_yields_fail,
    and_false, or_false, yields_pure] at h
  obtain ⟨ha, rfl, rfl⟩ := h
  exact ⟨ha, rfl, rfl, rfl, rfl, rfl⟩

theorem missingAngle_complete {env : ParserEnv} (kind : Kind) (h : env.allowMissingAngle = true) :
    ∃ t, Yields (missingAngle env kind) s .absent t ∧ Moved s s.rest t := by
  simp only [missingAngle, yields_location_bind, yields_ite, warn, record, yields_modify_bind, not_yields_fail,
    and_false, or_false, yields_pure]
  exact ⟨_, ⟨h, trivial, rfl⟩, rfl, rfl, rfl, rfl⟩

theorem angleInside_sound {env : ParserEnv} {kind : Kind} {a : Angle} (h : Yields (angleInside env kind) s a t) :
    ∃ w b rest, w ≠ .absent ∧ Splits (AngleSyntax.inside w) s.rest rest ∧
      w.angle? env.allowMissingAngle = some b ∧ AngleStands a b ∧ Moved s rest t := by
  obtain ⟨o, u, ho, hrest⟩ := yields_bind.mp h
  rcases yields_optionalFloat.mp ho with ⟨x, ts, d, hr, hk, hd, rfl, rfl⟩ | ⟨-, rfl, rfl⟩
  · obtain ⟨rfl, rfl⟩ := yields_pure.mp hrest
    rcases hk with hk | hk
    · exact ⟨.float x.text, .literal d, ts, nofun, (splits_single rfl).mpr ⟨x, hr, hk, rfl⟩,
        by simp [AngleSyntax.angle?, hd], rfl, moved_facing ..⟩
    · exact ⟨.int x.text, .literal d, ts, nofun, (splits_single rfl).mpr ⟨x, hr, hk, rfl⟩,
        by simp [AngleSyntax.angle?, hd], rfl, moved_facing ..⟩
  · obtain ⟨o, v, ho, hmissing⟩ := yields_bind.mp hrest
    rcases yields_optionalOperand.mp ho with ⟨x, ts, hr, hk, rfl, rfl⟩ | ⟨-, rfl, rfl⟩
    · obtain ⟨rfl, rfl⟩ := yields_pure.mp hmissing
      exact ⟨.reference x.text, .reference x.text, ts, nofun, (splits_single rfl).mpr ⟨x, hr, hk, rfl⟩, rfl, rfl,
        moved_facing ..⟩
    · obtain ⟨ha, rfl, hm⟩ := missingAngle_sound hmissing
      exact ⟨.empty, .absent, v.rest, nofun, Splits.nil_iff.mpr rfl, by simp [AngleSyntax.angle?, ha], trivial, hm⟩

theorem angleInside_complete {env : ParserEnv} {kind : Kind} {w : AngleSyntax} {b : AngleOf String}
    {rest : List Token} (hw : w ≠ .absent) (hs : Splits w.inside s.rest rest)
    (hb : w.angle? env.allowMissingAngle = some b) (hend : nextKind rest = .closeParen) :
    ∃ a t, Yields (angleInside env kind) s a t ∧ AngleStands a b ∧ Moved s rest t := by
  cases w with
  | absent => exact absurd rfl hw
  | empty =>
    obtain rfl := Splits.nil_iff.mp hs
    obtain ⟨ha, rfl⟩ : env.allowMissingAngle = true ∧ b = .absent := by
      replace hb : (if env.allowMissingAngle = true then some (AngleOf.absent : AngleOf String) else none) = some b :=
        hb
      split at hb
      · next ha => exact ⟨ha, (Option.some.inj hb).symm⟩
      · cases hb
    obtain ⟨t, ht, hm⟩ := missingAngle_complete (s := s) kind ha
    refine ⟨.absent, t, yields_bind.mpr ⟨none, s, yields_optionalFloat.mpr (.inr ⟨?_, rfl, rfl⟩), ?_⟩, trivial, hm⟩
    · rw [hend]; exact ⟨nofun, nofun⟩
    · refine yields_bind.mpr ⟨none, s, yields_optionalOperand.mpr (.inr ⟨?_, rfl, rfl⟩), ht⟩
      rw [hend]; exact nofun
  | float d =>
    obtain ⟨x, hr, hk, rfl⟩ := (splits_single rfl).mp hs
    obtain ⟨y, hy, rfl⟩ := Option.map_eq_some_iff.mp hb
    exact ⟨.literal y, _, yields_bind.mpr ⟨some y, _, yields_optionalFloat.mpr
      (.inl ⟨x, rest, y, hr, .inl hk, hy, rfl, rfl⟩), yields_pure.mpr ⟨rfl, rfl⟩⟩, rfl, moved_facing ..⟩
  | int d =>
    obtain ⟨x, hr, hk, rfl⟩ := (splits_single rfl).mp hs
    obtain ⟨y, hy, rfl⟩ := Option.map_eq_some_iff.mp hb
    exact ⟨.literal y, _, yields_bind.mpr ⟨some y, _, yields_optionalFloat.mpr
      (.inl ⟨x, rest, y, hr, .inr hk, hy, rfl, rfl⟩), yields_pure.mpr ⟨rfl, rfl⟩⟩, rfl, moved_facing ..⟩
  | reference n =>
    cases hb
    obtain ⟨x, hr, hk, rfl⟩ := (splits_single rfl).mp hs
    refine ⟨.reference ⟨x.text, x.location⟩, _, yields_bind.mpr ⟨none, s, yields_optionalFloat.mpr
      (.inr ⟨?_, rfl, rfl⟩), ?_⟩, rfl, moved_facing ..⟩
    · rw [hr, nextKind_cons, hk]; exact ⟨nofun, nofun⟩
    · exact yields_bind.mpr ⟨some _, _, yields_optionalOperand.mpr (.inl ⟨x, rest, hr, hk, rfl, rfl⟩),
        yields_pure.mpr ⟨rfl, rfl⟩⟩

theorem optionalAngle_sound {env : ParserEnv} {kind : Kind} {a : Angle}
    (h : Yields (optionalAngle env kind) s a t) :
    ∃ w b rest, Splits (AngleSyntax.words w) s.rest rest ∧ w.angle? env.allowMissingAngle = some b ∧
      (kind.rotation = false → w = .absent) ∧
      (kind.rotation = true → w = .absent → nextKind rest ≠ .openParen) ∧ AngleStands a b ∧ Moved s rest t := by
  rcases yields_ite.mp h with ⟨hr, h⟩ | ⟨hr, h⟩
  · rcases (yields_unlessMark rfl (by decide)).mp h with ⟨us, ho, h⟩ | ⟨hn, h⟩
    · obtain ⟨a, u, ha, h⟩ := yields_bind.mp h
      obtain ⟨w, b, vs, hw, hs, hb, hstand, hm⟩ := angleInside_sound ha
      obtain ⟨rest, hc, h⟩ := (yields_mark rfl (by decide)).mp h
      obtain ⟨rfl, rfl⟩ := yields_pure.mp h
      rw [hm.rest] at hc
      refine ⟨w, b, rest, ?_, hb, fun h => absurd (hr.symm.trans h) nofun, fun _ h => absurd h hw, hstand, ?_⟩
      · have := ho.append (hs.append hc)
        cases w with
        | absent => exact absurd rfl hw
        | _ => exact this
      · exact ⟨rfl, hm.block, hm.context, hm.tags⟩
    · obtain ⟨rfl, rfl⟩ := yields_pure.mp h
      exact ⟨.absent, .absent, t.rest, Splits.nil_iff.mpr rfl, rfl, fun _ => rfl, fun _ _ => hn, trivial,
        ⟨rfl, rfl, rfl, rfl⟩⟩
  · obtain ⟨rfl, rfl⟩ := yields_pure.mp h
    exact ⟨.absent, .absent, t.rest, Splits.nil_iff.mpr rfl, rfl, fun _ => rfl, fun h => absurd h hr, trivial,
      ⟨rfl, rfl, rfl, rfl⟩⟩

theorem optionalAngle_complete {env : ParserEnv} {kind : Kind} {w : AngleSyntax} {b : AngleOf String}
    {rest : List Token} (hs : Splits w.words s.rest rest) (hb : w.angle? env.allowMissingAngle = some b)
    (hrot : kind.rotation = false → w = .absent)
    (hn : kind.rotation = true → w = .absent → nextKind rest ≠ .openParen) :
    ∃ a t, Yields (optionalAngle env kind) s a t ∧ AngleStands a b ∧ Moved s rest t := by
  by_cases habs : w = .absent
  · subst habs
    cases hb
    obtain rfl := Splits.nil_iff.mp hs
    refine ⟨.absent, s, yields_ite.mpr ?_, trivial, rfl, rfl, rfl, rfl⟩
    cases hr : kind.rotation with
    | true => exact .inl ⟨rfl, (yields_unlessMark rfl (by decide)).mpr (.inr ⟨hn hr rfl, yields_pure.mpr ⟨rfl, rfl⟩⟩)⟩
    | false => exact .inr ⟨nofun, yields_pure.mpr ⟨rfl, rfl⟩⟩
  · have hr : kind.rotation = true := by
      cases h : kind.rotation with
      | true => rfl
      | false => exact absurd (hrot h) habs
    have hsplit : Splits ([Word.mark .openParen] ++ (w.inside ++ [.mark .closeParen])) s.rest rest := by
      cases w with
      | absent => exact absurd rfl habs
      | _ => exact hs
    obtain ⟨us, ho, htail⟩ := Splits.append_iff.mp hsplit
    obtain ⟨vs, hi, hc⟩ := Splits.append_iff.mp htail
    obtain ⟨a, u, ha, hstand, hm⟩ : ∃ a u, Yields (angleInside env kind) (s.facing us) a u ∧ AngleStands a b ∧
        Moved (s.facing us) vs u := angleInside_complete habs hi hb (hc.nextKind_eq rfl)
    refine ⟨a, u.facing rest, yields_ite.mpr (.inl ⟨hr, ?_⟩), hstand, rfl, hm.block, hm.context, hm.tags⟩
    refine (yields_unlessMark rfl (by decide)).mpr (.inl ⟨us, ho, yields_bind.mpr ⟨a, u, ha, ?_⟩⟩)
    exact (yields_mark rfl (by decide)).mpr ⟨rest, by rw [hm.rest]; exact hc, yields_pure.mpr ⟨rfl, rfl⟩⟩

end Parser

end GateAsm
