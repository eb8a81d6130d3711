import GateAsm.Proofs.Grammar.Operands
import GateAsm.Proofs.Grammar.Call
import GateAsm.Proofs.Written.Literals

/-!
# Operands as they are written

An operand is written with its accessor behind it, an angle in parentheses. What is written so is read as
the same operand or angle, as long as the names in it are those of values and its numbers are in range.
-/

namespace GateAsm

theorem fewDigits_of_int64 {n : Int} (h : InInt64 n) : FewDigits n := by
  obtain ⟨hlow, hhigh⟩ := h
  have small : n.natAbs < 10 ^ 20 := by
    unfold int64Min at hlow
    unfold int64Max at hhigh
    omega
  exact Nat.lt_of_lt_of_le small (Nat.pow_le_pow_right (by decide) (by decide))

/-! ## Accessors -/

namespace Part

def written : Part String → String
  | number n => toString n
  | reference r => r

def form : Part String → PartSyntax
  | number n => .int (toString n)
  | reference r => .reference r

theorem emits_written {p : Part String} (h : ∀ n, p.reference? = some n → IsValueName n) :
    Emits p.written.toList [p.form.word] := by
  cases p with
  | number n => exact emits_int n
  | reference r => exact emits_valueName (h r rfl)

theorem part?_form {p : Part String} (h : p.component.Legal) : p.form.part? = some p := by
  cases p with
  | number n =>
    have hn : InInt64 n := h
    rw [form, PartSyntax.part?, intLiteral?_toString (fewDigits_of_int64 hn)]
    simp [hn]
  | reference r => rfl

theorem parts?_form {ps : List (Part String)} (h : ∀ p ∈ ps, p.component.Legal) :
    PartSyntax.parts? (ps.map form) = some ps := by
  induction ps with
  | nil => rfl
  | cons p ps ih =>
    exact PartSyntax.parts?_cons_iff.mpr ⟨p, ps, part?_form (h p List.mem_cons_self),
      ih fun q hq => h q (List.mem_cons_of_mem _ hq), rfl⟩

end Part

def accessorText (ps : List (Part String)) : String :=
  if ps.isEmpty then "" else "[" ++ ", ".intercalate (ps.map Part.written) ++ "]"

def accessorForm : List (Part String) → Option (List PartSyntax)
  | [] => none
  | ps => some (ps.map Part.form)

theorem follows_accessor {ps : List (Part String)} (h : ∀ n ∈ ps.filterMap Part.reference?, IsValueName n) :
    Follows (accessorText ps).toList (OperandSyntax.accessorWords (accessorForm ps)) := by
  have closed : Follows [ ']' ] [.mark .closeBracket] := Emits.nil.behind_mark (c := ']') rfl
  have list := emits_intercalate ps fun p hp =>
    Part.emits_written fun n hn => h n (List.mem_filterMap.mpr ⟨p, hp, hn⟩)
  cases ps with
  | nil => exact .nil
  | cons p ps =>
    have := (list.append closed).behind_mark (c := '[') rfl
    simpa [accessorText, accessorForm, OperandSyntax.accessorWords, Function.comp_def] using this

/-! ## Operands -/

namespace Filler

def written (f : Filler String) : String := f.main ++ accessorText f.parts

def form (f : Filler String) : OperandSyntax := ⟨f.main, accessorForm f.parts⟩

def Named (f : Filler String) : Prop := IsValueName f.main ∧ ∀ n ∈ f.references, IsValueName n

theorem emits_written {f : Filler String} (h : f.Named) : Emits f.written.toList f.form.words := by
  have := (emits_valueName h.1).append (follows_accessor h.2)
  simpa [written, form, OperandSyntax.words] using this

theorem filler?_form {f : Filler String} (h : LegalParts f.parts) : f.form.filler? = some f := by
  refine OperandSyntax.filler?_eq_some_iff.mpr ⟨?_, h.1, rfl⟩
  have hp := Part.parts?_form h.2
  unfold form accessorForm
  split
  · next he => rw [he]; rfl
  · exact hp

theorem fillers?_form {fs : List (Filler String)} (h : ∀ f ∈ fs, LegalParts f.parts) :
    OperandSyntax.fillers? (fs.map form) = some fs := by
  induction fs with
  | nil => rfl
  | cons f fs ih =>
    exact OperandSyntax.fillers?_cons_iff.mpr ⟨f, fs, filler?_form (h f List.mem_cons_self),
      ih fun g hg => h g (List.mem_cons_of_mem _ hg), rfl⟩

end Filler

theorem FillSlots.legal {ρ : Type} {ss : List Slot} {fs : List (Filler ρ)} (h : FillSlots ss fs) :
    ∀ f ∈ fs, LegalParts f.parts := by
  induction fs generalizing ss with
  | nil => nofun
  | cons f fs ih =>
    cases ss with
    | nil => cases h
    | cons s ss =>
      intro g hg
      rcases List.mem_cons.mp hg with rfl | hg
      · exact h.1.1
      · exact ih h.2 g hg

theorem slotsAllow_form {ss : List Slot} {fs : List (Filler String)} (h : FillSlots ss fs) :
    SlotsAllow ss (fs.map Filler.form) := by
  induction fs generalizing ss with
  | nil => cases ss <;> trivial
  | cons f fs ih =>
    cases ss with
    | nil => cases h
    | cons s ss => exact ⟨fun hs => by rw [Filler.form, h.1.2 hs]; rfl, ih h.2⟩

def operandsText : (mark : String) → List (Filler String) → String
  | _, [] => ""
  | mark, f :: fs => mark ++ f.written ++ operandsText ", " fs

theorem follows_arguments {fs : List (Filler String)} (h : ∀ f ∈ fs, f.Named) :
    Follows (operandsText ", " fs).toList (CallSyntax.argumentWords (fs.map Filler.form)) := by
  induction fs with
  | nil => exact .nil
  | cons f fs ih =>
    have rest := ih fun g hg => h g (List.mem_cons_of_mem _ hg)
    have one := (((f.emits_written (h f List.mem_cons_self)).append rest).behind_space (c := ' ') rfl).emits.behind_mark
      (c := ',') rfl
    simpa [operandsText, CallSyntax.argumentWords] using one

theorem follows_operands {fs : List (Filler String)} (h : ∀ f ∈ fs, f.Named) :
    Follows (operandsText " " fs).toList (GroupSyntax.operandWords (fs.map Filler.form)) := by
  cases fs with
  | nil => exact .nil
  | cons f fs =>
    have rest := follows_arguments fun g hg => h g (List.mem_cons_of_mem _ hg)
    have one := ((f.emits_written (h f List.mem_cons_self)).append rest).behind_space (c := ' ') rfl
    simpa [operandsText, GroupSyntax.operandWords, CallSyntax.argumentWords, listed_cons] using one

/-! ## Angles -/

namespace AngleOf

def written : AngleOf String → String
  | absent => ""
  | literal x => "(" ++ x.text ++ ")"
  | reference r => "(" ++ r ++ ")"

def form : AngleOf String → AngleSyntax
  | absent => .absent
  | literal x => .float x.text
  | reference r => .reference r

def Writable : AngleOf String → Prop
  | absent => True
  | literal x => x.ReadsBack
  | reference r => IsValueName r

theorem follows_written {a : AngleOf String} (h : a.Writable) : Follows a.written.toList a.form.words := by
  have closed : Follows [ ')' ] [.mark .closeParen] := Emits.nil.behind_mark (c := ')') rfl
  cases a with
  | absent => exact .nil
  | literal x =>
    have := ((emits_float h.float).append closed).behind_mark (c := '(') rfl
    simpa [written, form, AngleSyntax.words, AngleSyntax.inside] using this
  | reference r =>
    have := ((emits_valueName h).append closed).behind_mark (c := '(') rfl
    simpa [written, form, AngleSyntax.words, AngleSyntax.inside] using this

theorem angle?_form {a : AngleOf String} (h : a.Writable) (allow : Bool) : a.form.angle? allow = some a := by
  cases a with
  | literal x => simp [form, AngleSyntax.angle?, Double.ReadsBack.reads h]
  | _ => rfl

end AngleOf

end GateAsm
