import GateAsm.Proofs.Json.Text

/-!
# The characters of JSON text

The text of a value is ASCII in every layout (`Json.ascii_chars`). It does not tell one NaN from another, so that a
value has the text of the one with all NaNs quiet (`Json.chars_quiet`).
-/

namespace GateAsm.Json

def Ascii (cs : List Char) : Prop := ∀ c ∈ cs, c.toNat < 0x80

instance (cs : List Char) : Decidable (Ascii cs) := List.decidableBAll _ cs

theorem ascii_nil : Ascii [] := nofun

theorem ascii_cons_iff {c : Char} {cs : List Char} : Ascii (c :: cs) ↔ c.toNat < 0x80 ∧ Ascii cs := List.forall_mem_cons

theorem ascii_append_iff {cs ds : List Char} : Ascii (cs ++ ds) ↔ Ascii cs ∧ Ascii ds := List.forall_mem_append

/-! ## Strings -/

theorem ascii_unitEscape (n : Nat) : Ascii (unitEscape n) := by
  have digit : ∀ d < 16, (Text.hexDigit d).toNat < 0x80 := by decide
  have digits (m : Nat) : (Text.hexDigit (m % 16)).toNat < 0x80 := digit _ (Nat.mod_lt _ (by decide))
  simp [unitEscape, Text.hexDigits, Ascii, digits]

theorem ascii_asciiChar (c : Char) : Ascii (asciiChar c) := by
  have letter : ∀ e, shortEscape? c = some e → e.toNat < 0x80 := by
    intro e he
    unfold shortEscape? at he
    split_ifs at he <;> cases he <;> decide
  unfold asciiChar
  split
  · next e he => exact ascii_cons_iff.mpr ⟨by decide, ascii_cons_iff.mpr ⟨letter e he, ascii_nil⟩⟩
  · split
    · next hc =>
      simp only [Bool.and_eq_true, decide_eq_true_eq] at hc
      exact ascii_cons_iff.mpr ⟨by omega, ascii_nil⟩
    · split
      · exact ascii_unitEscape _
      · exact ascii_append_iff.mpr ⟨ascii_unitEscape _, ascii_unitEscape _⟩

theorem ascii_stringChars (s : String) : Ascii (stringChars s) := by
  have body : Ascii (s.toList.flatMap asciiChar) := by
    intro c hc
    obtain ⟨d, -, hc⟩ := List.mem_flatMap.mp hc
    exact ascii_asciiChar d c hc
  exact ascii_append_iff.mpr ⟨ascii_cons_iff.mpr ⟨by decide, body⟩, by decide⟩

/-! ## Numbers -/

theorem ascii_digits {ds : List Char} (h : ∀ c ∈ ds, c.isDigit = true) : Ascii ds := by
  intro c hc
  exact Nat.lt_of_le_of_lt (Char.isDigit_iff_toNat.mp (h c hc)).2 (by decide)

theorem ascii_int (n : Int) : Ascii (toString n).toList := by
  have digits (m : Nat) : Ascii (Nat.toDigits 10 m) :=
    ascii_digits fun c => Nat.isDigit_of_mem_toDigits (by decide) (by decide)
  rw [show toString n = n.repr from rfl, Int.repr_eq_if]
  split
  · rw [Nat.toList_repr]
    exact digits _
  · rw [String.toList_append, Nat.toList_repr]
    exact ascii_append_iff.mpr ⟨by decide, digits _⟩

theorem ascii_numeral (n : Floating.Numeral) : Ascii n.chars := by
  have point : Ascii n.point := by
    rcases n.point_spec with ⟨-, h⟩ | h
    · rw [h]
      exact ascii_nil
    · rw [h]
      exact ascii_cons_iff.mpr ⟨by decide, ascii_digits n.fractionDigits⟩
  have tail : Ascii n.tail := by
    unfold Floating.Numeral.tail
    cases hexp : n.exponent with
    | none => exact ascii_nil
    | some x =>
      have digits := ascii_digits (n.exponentDigits _ hexp).2
      have sign : (if x.1 then '-' else '+').toNat < 0x80 := by cases x.1 <;> decide
      exact ascii_cons_iff.mpr ⟨by decide, ascii_cons_iff.mpr ⟨sign, digits⟩⟩
  exact ascii_append_iff.mpr ⟨ascii_digits n.wholeDigits, ascii_append_iff.mpr ⟨point, tail⟩⟩

theorem ascii_float {x : Double} (h : x.bits < 2 ^ 64) : Ascii x.jsonText.toList := by
  cases hn : x.number with
  | nan =>
    rw [Double.jsonText, hn]
    decide
  | infinite s =>
    rw [Double.jsonText, hn]
    cases s <;> decide
  | finite s m e =>
    have finite : x.isFinite = true := by
      unfold Double.isFinite
      rw [hn]
      rfl
    obtain ⟨negative, n, htext, -⟩ := Floating.Style.text_numeral (s := .json) (by decide) finite h
    rw [Double.jsonText, htext]
    exact ascii_append_iff.mpr ⟨by cases negative <;> decide, ascii_numeral n⟩

/-! ## Values -/

section
variable (l : Layout)

theorem ascii_newline (d : Nat) : Ascii (l.newline d) := by
  cases l with
  | compact => exact ascii_nil
  | indented width =>
    refine ascii_cons_iff.mpr ⟨by decide, fun c hc => ?_⟩
    rw [List.eq_of_mem_replicate hc]
    decide

theorem ascii_colon : Ascii l.colon := by
  cases l with
  | compact => exact show Ascii [':'] by decide
  | indented width => exact show Ascii [':', ' '] by decide

mutual

theorem ascii_chars (d : Nat) : (j : Json) → j.Writable → Ascii (j.chars l d)
  | .null, _ => show Ascii "null".toList by decide
  | .bool true, _ => show Ascii "true".toList by decide
  | .bool false, _ => show Ascii "false".toList by decide
  | .int n, _ => ascii_int n
  | .float _, h => ascii_float h.2
  | .str s, _ => ascii_stringChars s
  | .arr [], _ => show Ascii ['[', ']'] by decide
  | .arr (item :: items), h => by
    have first := ascii_chars (d + 1) item h.1
    have others := ascii_itemChars (d + 1) items h.2
    simp [chars, ascii_append_iff, ascii_cons_iff, ascii_newline, first, others, ascii_nil]
  | .obj [], _ => show Ascii ['\x7b', '\x7d'] by decide
  | .obj ((k, value) :: fields), h => by
    have first := ascii_chars (d + 1) value h.2.1
    have others := ascii_fieldChars (d + 1) fields h.2.2
    simp [chars, ascii_append_iff, ascii_cons_iff, ascii_newline, ascii_stringChars, ascii_colon, first,
      others, ascii_nil]

theorem ascii_itemChars (d : Nat) : (items : List Json) → AllWritable items → Ascii (itemChars l d items)
  | [], _ => ascii_nil
  | item :: items, h => by
    have first := ascii_chars d item h.1
    have others := ascii_itemChars d items h.2
    simp [itemChars, ascii_append_iff, ascii_cons_iff, ascii_newline, first, others]

theorem ascii_fieldChars (d : Nat) : (fields : List (String × Json)) → FieldsWritable fields → Ascii
    (fieldChars l d fields)
  | [], _ => ascii_nil
  | (k, value) :: fields, h => by
    have first := ascii_chars d value h.1
    have others := ascii_fieldChars d fields h.2
    simp [fieldChars, ascii_append_iff, ascii_cons_iff, ascii_newline, ascii_stringChars, ascii_colon, first, others]

end

end

/-! ## NaN -/

mutual

def quiet : Json → Json
  | float x => float x.quiet
  | arr items => arr (quietItems items)
  | obj fields => obj (quietFields fields)
  | j => j

def quietItems : List Json → List Json
  | [] => []
  | j :: js => quiet j :: quietItems js

def quietFields : List (String × Json) → List (String × Json)
  | [] => []
  | (k, j) :: fields => (k, quiet j) :: quietFields fields

end

mutual

theorem Writable.quiet : {j : Json} → j.Writable → j.quiet = j
  | null, _ | bool _, _ | int _, _ | str _, _ => rfl
  | float _, h => congrArg float h.1
  | arr _, h => congrArg arr (AllWritable.quiet h)
  | obj _, h => congrArg obj (FieldsWritable.quiet h.2)

theorem AllWritable.quiet : {items : List Json} → AllWritable items → quietItems items = items
  | [], _ => rfl
  | _ :: _, h => congrArg₂ List.cons h.1.quiet h.2.quiet

theorem FieldsWritable.quiet : {fields : List (String × Json)} → FieldsWritable fields → quietFields fields = fields
  | [], _ => rfl
  | (k, _) :: _, h => congrArg₂ (fun j fields => (k, j) :: fields) h.1.quiet h.2.quiet

end

section
variable (l : Layout)

mutual

theorem chars_quiet (d : Nat) : (j : Json) → j.quiet.chars l d = j.chars l d
  | .null | .bool _ | .int _ | .str _ | .arr [] | .obj [] => rfl
  | .float x => congrArg String.toList x.jsonText_quiet
  | .arr (item :: items) => by
    rw [quiet, quietItems, chars, chars, chars_quiet (d + 1) item, itemChars_quiet (d + 1) items]
  | .obj ((k, value) :: fields) => by
    rw [quiet, quietFields, chars, chars, chars_quiet (d + 1) value, fieldChars_quiet (d + 1) fields]

theorem itemChars_quiet (d : Nat) : (items : List Json) → itemChars l d (quietItems items) = itemChars l d items
  | [] => rfl
  | item :: items => by rw [quietItems, itemChars, itemChars, chars_quiet d item, itemChars_quiet d items]

theorem fieldChars_quiet (d : Nat) : (fields : List (String × Json)) →
    fieldChars l d (quietFields fields) = fieldChars l d fields
  | [] => rfl
  | (k, value) :: fields => by
    rw [quietFields, fieldChars, fieldChars, chars_quiet d value, fieldChars_quiet d fields]

end

mutual

theorem isShowable_quiet : (j : Json) → j.quiet.isShowable = j.isShowable
  | null | bool _ | int _ | float _ | str _ => rfl
  | arr items => areShowable_quietItems items
  | obj fields => fieldsAreShowable_quietFields fields

theorem areShowable_quietItems : (items : List Json) → areShowable (quietItems items) = areShowable items
  | [] => rfl
  | j :: js => congrArg₂ (· && ·) (isShowable_quiet j) (areShowable_quietItems js)

theorem fieldsAreShowable_quietFields : (fields : List (String × Json)) →
    fieldsAreShowable (quietFields fields) = fieldsAreShowable fields
  | [] => rfl
  | (_, j) :: fields => congrArg₂ (· && ·) (isShowable_quiet j) (fieldsAreShowable_quietFields fields)

end

theorem write_quiet (j : Json) : write l j.quiet = write l j := congrArg String.ofList (chars_quiet l 0 j)

end

end GateAsm.Json
