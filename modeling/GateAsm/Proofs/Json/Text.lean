import GateAsm.Proofs.Json.Scalars

/-!
# JSON text read back

What is written in any layout is read as the same value (`Json.read_write`), as long as its integers are not too
long, its NaNs are quiet, and no two fields of an object have one name. The induction is on the value; the
reader has more fuel than there are characters.
-/

namespace GateAsm.Json

mutual

def Writable : Json → Prop
  | int n => FewDigits n
  | float x => x.quiet = x ∧ x.bits < 2 ^ 64
  | arr items => AllWritable items
  | obj fields => (fields.map (·.1)).Nodup ∧ FieldsWritable fields
  | _ => True

def AllWritable : List Json → Prop
  | [] => True
  | j :: js => Writable j ∧ AllWritable js

def FieldsWritable : List (String × Json) → Prop
  | [] => True
  | (_, j) :: fields => Writable j ∧ FieldsWritable fields

end

mutual

theorem Writable.isShowable : {j : Json} → j.Writable → j.isShowable = true
  | null, _ | bool _, _ | float _, _ | str _, _ => rfl
  | int n, h => by
    rw [Json.isShowable]
    exact decide_eq_true h
  | arr _, h => AllWritable.areShowable h
  | obj _, h => FieldsWritable.areShowable h.2

theorem AllWritable.areShowable : {items : List Json} → AllWritable items → Json.areShowable items = true
  | [], _ => rfl
  | _ :: _, h => Bool.and_eq_true_iff.mpr ⟨h.1.isShowable, AllWritable.areShowable h.2⟩

theorem FieldsWritable.areShowable : {fields : List (String × Json)} → FieldsWritable fields →
    fieldsAreShowable fields = true
  | [], _ => rfl
  | _ :: _, h => Bool.and_eq_true_iff.mpr ⟨h.1.isShowable, FieldsWritable.areShowable h.2⟩

end

/-! ## Blanks -/

section
variable {l : Layout} {d : Nat} {c : Char} {cs : List Char}

theorem isSpace_newline : ∀ c ∈ l.newline d, isSpace c = true := by
  cases l with
  | compact => exact nofun
  | indented width =>
    intro c hc
    rcases List.mem_cons.mp hc with rfl | hc
    · rfl
    · rw [List.eq_of_mem_replicate hc]
      rfl

theorem skipSpace_cons (h : isSpace c = false) : skipSpace (c :: cs) = c :: cs :=
  List.dropWhile_cons_of_neg (by simp [h])

theorem skipSpace_newline (h : isSpace c = false) : skipSpace (l.newline d ++ c :: cs) = c :: cs := by
  rw [skipSpace, List.dropWhile_append_of_pos isSpace_newline]
  exact skipSpace_cons h

theorem skipSpace_colon (h : isSpace c = false) :
    ∃ more, l.colon ++ c :: cs = ':' :: more ∧ skipSpace more = c :: cs := by
  cases l with
  | compact => exact ⟨_, rfl, skipSpace_cons h⟩
  | indented width => exact ⟨_, rfl, skipSpace_cons h⟩

theorem ends_newline (h : c.isDigit = false ∧ c ≠ '.' ∧ c ≠ 'e' ∧ c ≠ 'E') : Ends (l.newline d ++ c :: cs) := by
  cases l with
  | compact => exact ends_cons h
  | indented width => exact ends_cons (by decide)

end

section
variable (l : Layout) (d : Nat) (rest : List Char)

theorem ends_itemChars (items : List Json) : Ends (itemChars l (d + 1) items ++ (l.newline d ++ ']' :: rest)) := by
  cases items with
  | nil => exact ends_newline (by decide)
  | cons item items => exact ends_cons (by decide)

theorem ends_fieldChars (fields : List (String × Json)) :
    Ends (fieldChars l (d + 1) fields ++ (l.newline d ++ '\x7d' :: rest)) := by
  cases fields with
  | nil => exact ends_newline (by decide)
  | cons field fields => exact ends_cons (by decide)

theorem skipSpace_itemChars (item : Json) (items : List Json) : skipSpace (itemChars l d (item :: items) ++ rest) =
    ',' :: (l.newline d ++ (item.chars l d ++ (itemChars l d items ++ rest))) := by
  rw [itemChars, List.append_assoc, List.append_assoc]
  exact skipSpace_cons rfl

theorem skipSpace_fieldChars (k : String) (value : Json) (fields : List (String × Json)) :
    skipSpace (fieldChars l d ((k, value) :: fields) ++ rest) =
      ',' :: (l.newline d ++ (stringChars k ++ (l.colon ++ (value.chars l d ++ (fieldChars l d fields ++ rest))))) := by
  simp only [fieldChars, List.append_assoc]
  exact skipSpace_cons rfl

end

/-! ## The first character -/

def Starts (c : Char) : Prop := isSpace c = false ∧ c ≠ ']'

theorem scalarAt_other {c : Char} (hd : c.isDigit = false) (hc : c ∉ ['n', 't', 'f', 'N', 'I', '-']) (cs : List Char) :
    scalarAt (c :: cs) = .error .malformed := by
  simp only [List.mem_cons, List.not_mem_nil, or_false, not_or] at hc
  obtain ⟨h₁, h₂, h₃, h₄, h₅, h₆⟩ := hc
  have whole : wholePart (c :: cs) = ([], c :: cs) := by
    rw [wholePart.eq_def]
    split
    · next heq =>
      cases heq
      exact absurd hd (by decide)
    · rw [List.takeWhile_cons_of_neg (by simp [hd]), List.dropWhile_cons_of_neg (by simp [hd])]
  have none : (words.findSome? fun x => (afterWord? x.1 (c :: cs)).map (x.2, ·)) = none := by
    simp [words, afterWord?, h₁, h₂, h₃, h₄, h₅, h₆]
  unfold scalarAt
  rw [none]
  dsimp only
  split
  · next heq =>
    cases heq
    exact absurd rfl h₆
  · simp [numberAt, whole]

theorem valueAt_scalar {fuel : Nat} {cs : List Char} {r : Json × List Char} (h : scalarAt cs = .ok r) :
    valueAt (fuel + 1) cs = .ok r ∧ ∃ c more, cs = c :: more ∧ Starts c := by
  cases cs with
  | nil => cases h
  | cons c cs =>
    have other (hd : c.isDigit = false) : c ∈ ['n', 't', 'f', 'N', 'I', '-'] := by
      by_contra hc
      rw [scalarAt_other hd hc] at h
      cases h
    have ne (d : Char) (hd : d.isDigit = false) (hm : d ∉ ['n', 't', 'f', 'N', 'I', '-']) : c ≠ d := by
      rintro rfl
      exact hm (other hd)
    have quote := ne '"' (by decide) (by decide)
    have bracket := ne '[' (by decide) (by decide)
    have brace := ne '\x7b' (by decide) (by decide)
    refine ⟨?_, c, cs, rfl, ?_, ne ']' (by decide) (by decide)⟩
    · rw [valueAt.eq_5 _ fuel (fun _ heq => quote (List.cons.inj heq).1) (fun _ heq => bracket (List.cons.inj heq).1)
        fun _ heq => brace (List.cons.inj heq).1]
      exact h
    · have space := ne ' ' (by decide) (by decide)
      have tab := ne '\t' (by decide) (by decide)
      have line := ne '\n' (by decide) (by decide)
      have return_ := ne '\r' (by decide) (by decide)
      simp [isSpace, space, tab, line, return_]

/-! ## Values -/

/-- The text is read as the value, whatever ends behind it. -/
structure Reads (cs : List Char) (j : Json) : Prop where
  starts : ∃ c more, cs = c :: more ∧ Starts c
  value : ∀ rest, Ends rest → ∀ fuel, cs.length < fuel → valueAt fuel (cs ++ rest) = .ok (j, rest)

theorem Reads.skipSpace_newline {cs : List Char} {j : Json} (h : Reads cs j) (l : Layout) (d : Nat) (rest : List Char) :
    skipSpace (l.newline d ++ (cs ++ rest)) = cs ++ rest := by
  obtain ⟨c, more, rfl, hc⟩ := h.starts
  exact Json.skipSpace_newline hc.1

theorem reads_scalar {cs : List Char} {j : Json} (h : ∀ rest, Ends rest → scalarAt (cs ++ rest) = .ok (j, rest)) :
    Reads cs j := by
  constructor
  · have := h [] ends_nil
    rw [List.append_nil] at this
    exact (@valueAt_scalar 0 _ _ this).2
  · intro rest hr fuel hf
    cases fuel with
    | zero => cases hf
    | succ fuel => exact (valueAt_scalar (h rest hr)).1

theorem reads_string (s : String) : Reads (stringChars s) (.str s) := by
  constructor
  · exact ⟨'"', _, rfl, rfl, by decide⟩
  · intro rest _ fuel hf
    cases fuel with
    | zero => cases hf
    | succ fuel =>
      obtain ⟨cs, hcs, hbody⟩ := stringBody?_stringChars s rest
      rw [hcs, valueAt.eq_2, hbody]
      simp

/-! ## Steps of the reader -/

section
variable {fuel : Nat} {cs rest more : List Char} {done : List Json} {item : Json}

theorem itemsAt_comma (h : valueAt fuel cs = .ok (item, rest)) (hs : skipSpace rest = ',' :: more) :
    itemsAt (fuel + 1) done cs = itemsAt fuel (item :: done) (skipSpace more) := by
  simp only [itemsAt.eq_2, h, hs]

theorem itemsAt_close (h : valueAt fuel cs = .ok (item, rest)) (hs : skipSpace rest = ']' :: more) :
    itemsAt (fuel + 1) done cs = .ok (.arr (done.reverse ++ [item]), more) := by
  simp only [itemsAt.eq_2, h, hs, List.reverse_cons]

variable {fields : List (String × Json)} {k : String} {colon : List Char}
  (hcolon : ∃ between, colon ++ cs = ':' :: between ∧ skipSpace between = cs)
include hcolon

theorem fieldsAt_comma (h : valueAt fuel cs = .ok (item, rest)) (hs : skipSpace rest = ',' :: more) :
    fieldsAt (fuel + 1) fields (stringChars k ++ (colon ++ cs)) =
      fieldsAt fuel (put k item fields) (skipSpace more) := by
  obtain ⟨between, hcolon, hblank⟩ := hcolon
  obtain ⟨body, hbody, hkey⟩ := stringBody?_stringChars k (':' :: between)
  have front : skipSpace (':' :: between) = ':' :: between := skipSpace_cons rfl
  rw [hcolon, hbody]
  simp only [fieldsAt.eq_2, hkey, front, hblank, h, hs, String.ofList_toList]

theorem fieldsAt_close (h : valueAt fuel cs = .ok (item, rest)) (hs : skipSpace rest = '\x7d' :: more) :
    fieldsAt (fuel + 1) fields (stringChars k ++ (colon ++ cs)) = .ok (.obj (put k item fields), more) := by
  obtain ⟨between, hcolon, hblank⟩ := hcolon
  obtain ⟨body, hbody, hkey⟩ := stringBody?_stringChars k (':' :: between)
  have front : skipSpace (':' :: between) = ':' :: between := skipSpace_cons rfl
  rw [hcolon, hbody]
  simp only [fieldsAt.eq_2, hkey, front, hblank, h, hs, String.ofList_toList]

end

theorem put_of_not_mem {k : String} {value : Json} {fields : List (String × Json)} (h : k ∉ fields.map (·.1)) :
    put k value fields = fields ++ [(k, value)] := by
  induction fields with
  | nil => rfl
  | cons e fields ih =>
    rw [List.map_cons, List.mem_cons, not_or] at h
    rw [put, if_neg (Ne.symm h.1), ih h.2]
    rfl

theorem not_mem_of_nodup {k : String} {value : Json} {fields done : List (String × Json)}
    (h : ((done ++ (k, value) :: fields).map (·.1)).Nodup) : k ∉ done.map (·.1) := by
  rw [List.map_append, List.nodup_append] at h
  intro hk
  exact h.2.2 k hk k List.mem_cons_self rfl

/-! ## Items and fields -/

def ItemsRead (l : Layout) (d : Nat) (items : List Json) : Prop :=
  ∀ cs item, Reads cs item → ∀ rest done fuel, cs.length + (itemChars l (d + 1) items).length + 1 < fuel →
    itemsAt fuel done (cs ++ (itemChars l (d + 1) items ++ (l.newline d ++ ']' :: rest))) =
      .ok (.arr (done.reverse ++ item :: items), rest)

def FieldsRead (l : Layout) (d : Nat) (fields : List (String × Json)) : Prop :=
  ∀ k cs value, Reads cs value → ∀ rest done fuel, cs.length + (fieldChars l (d + 1) fields).length + 1 < fuel →
    ((done ++ (k, value) :: fields).map (·.1)).Nodup →
    fieldsAt fuel done
        (stringChars k ++ (l.colon ++ (cs ++ (fieldChars l (d + 1) fields ++ (l.newline d ++ '\x7d' :: rest))))) =
      .ok (.obj (done ++ (k, value) :: fields), rest)

theorem Reads.colon {cs : List Char} {j : Json} (h : Reads cs j) (l : Layout) (rest : List Char) :
    ∃ between, l.colon ++ (cs ++ rest) = ':' :: between ∧ skipSpace between = cs ++ rest := by
  obtain ⟨c, more, rfl, hc⟩ := h.starts
  exact skipSpace_colon hc.1

section
variable {l : Layout} {d : Nat}

theorem itemsRead_nil : ItemsRead l d [] := by
  intro cs item h rest done fuel hf
  cases fuel with
  | zero => cases hf
  | succ fuel => exact itemsAt_close (h.value _ (ends_itemChars l d rest []) fuel (by omega)) (skipSpace_newline rfl)

theorem itemsRead_cons {item : Json} {items : List Json} (hitem : Reads (item.chars l (d + 1)) item)
    (hitems : ItemsRead l d items) : ItemsRead l d (item :: items) := by
  intro cs first h rest done fuel hf
  cases fuel with
  | zero => cases hf
  | succ fuel =>
    have value := h.value _ (ends_itemChars l d rest (item :: items)) fuel (by omega)
    rw [itemChars] at hf
    simp only [List.length_append, List.length_cons] at hf
    -- what stands behind the comma is the same question again, with one item more done
    have more := hitems _ _ hitem rest (first :: done) fuel (by omega)
    rw [itemsAt_comma value (skipSpace_itemChars ..), hitem.skipSpace_newline, more, List.reverse_cons,
      List.append_assoc]
    rfl

theorem fieldsRead_nil : FieldsRead l d [] := by
  intro k cs value h rest done fuel hf hnodup
  cases fuel with
  | zero => cases hf
  | succ fuel =>
    have read := h.value _ (ends_fieldChars l d rest []) fuel (by omega)
    rw [fieldsAt_close (h.colon l _) read (skipSpace_newline rfl), put_of_not_mem (not_mem_of_nodup hnodup)]

theorem fieldsRead_cons {k : String} {value : Json} {fields : List (String × Json)}
    (hvalue : Reads (value.chars l (d + 1)) value) (hfields : FieldsRead l d fields) :
    FieldsRead l d ((k, value) :: fields) := by
  intro first cs j h rest done fuel hf hnodup
  cases fuel with
  | zero => cases hf
  | succ fuel =>
    have read := h.value _ (ends_fieldChars l d rest ((k, value) :: fields)) fuel (by omega)
    rw [fieldChars] at hf
    simp only [List.length_append, List.length_cons] at hf
    -- the key is new, so it is put behind those that are done
    have more := hfields k _ _ hvalue rest (done ++ [(first, j)]) fuel (by omega)
    rw [List.append_assoc] at more
    rw [fieldsAt_comma (h.colon l _) read (skipSpace_fieldChars ..), put_of_not_mem (not_mem_of_nodup hnodup),
      (reads_string k).skipSpace_newline, more hnodup]
    rfl

theorem reads_arr_nil : Reads ['[', ']'] (.arr []) := by
  refine ⟨⟨'[', _, rfl, rfl, by decide⟩, fun rest _ fuel hf => ?_⟩
  cases fuel with
  | zero => cases hf
  | succ fuel => rfl

theorem reads_obj_nil : Reads ['\x7b', '\x7d'] (.obj []) := by
  refine ⟨⟨'\x7b', _, rfl, rfl, by decide⟩, fun rest _ fuel hf => ?_⟩
  cases fuel with
  | zero => cases hf
  | succ fuel => rfl

theorem reads_arr {item : Json} {items : List Json} (hitem : Reads (item.chars l (d + 1)) item)
    (hitems : ItemsRead l d items) : Reads ((Json.arr (item :: items)).chars l d) (.arr (item :: items)) := by
  refine ⟨⟨'[', _, rfl, rfl, by decide⟩, fun rest _ fuel hf => ?_⟩
  cases fuel with
  | zero => cases hf
  | succ fuel =>
    simp only [chars, List.length_append, List.length_cons] at hf
    have more := hitems _ _ hitem rest [] fuel (by omega)
    simp only [chars, List.append_assoc, List.cons_append, List.nil_append]
    -- an item does not start with a closing bracket, so the list is not taken for the empty one
    obtain ⟨c, cs, hc, -, bracket⟩ := hitem.starts
    have front := hitem.skipSpace_newline l (d + 1) (itemChars l (d + 1) items ++ (l.newline d ++ ']' :: rest))
    rw [hc] at more front ⊢
    rw [List.cons_append] at more front
    simp only [List.cons_append, valueAt.eq_3, front]
    split
    · next heq => exact absurd (List.cons.inj heq).1 bracket
    · exact more

theorem reads_obj {k : String} {value : Json} {fields : List (String × Json)}
    (hvalue : Reads (value.chars l (d + 1)) value)
    (hfields : FieldsRead l d fields) (hnodup : (((k, value) :: fields).map (·.1)).Nodup) :
    Reads ((Json.obj ((k, value) :: fields)).chars l d) (.obj ((k, value) :: fields)) := by
  refine ⟨⟨'\x7b', _, rfl, rfl, by decide⟩, fun rest _ fuel hf => ?_⟩
  cases fuel with
  | zero => cases hf
  | succ fuel =>
    simp only [chars, List.length_append, List.length_cons] at hf
    have more := hfields k _ _ hvalue rest [] fuel (by omega) hnodup
    simp only [chars, List.append_assoc, List.cons_append, List.nil_append, stringChars] at more ⊢
    rw [valueAt.eq_4, skipSpace_newline rfl]
    exact more

end

mutual

/-- The text of a value is read as the value. -/
theorem reads_chars (l : Layout) (d : Nat) : (j : Json) → j.Writable → Reads (j.chars l d) j
  | .null, _ => reads_scalar fun _ _ => rfl
  | .bool true, _ => reads_scalar fun _ _ => rfl
  | .bool false, _ => reads_scalar fun _ _ => rfl
  | .int _, h => reads_scalar fun _ hr => scalarAt_int hr h
  | .float _, h => reads_scalar fun _ hr => scalarAt_float hr h.1 h.2
  | .str s, _ => reads_string s
  | .arr [], _ => reads_arr_nil
  | .arr (item :: items), h => reads_arr (reads_chars l (d + 1) item h.1) (itemsRead l d items h.2)
  | .obj [], _ => reads_obj_nil
  | .obj ((_, value) :: fields), h => reads_obj (reads_chars l (d + 1) value h.2.1) (fieldsRead l d fields h.2.2) h.1

theorem itemsRead (l : Layout) (d : Nat) : (items : List Json) → AllWritable items → ItemsRead l d items
  | [], _ => itemsRead_nil
  | item :: items, h => itemsRead_cons (reads_chars l (d + 1) item h.1) (itemsRead l d items h.2)

theorem fieldsRead (l : Layout) (d : Nat) : (fields : List (String × Json)) → FieldsWritable fields →
    FieldsRead l d fields
  | [], _ => fieldsRead_nil
  | (_, value) :: fields, h => fieldsRead_cons (reads_chars l (d + 1) value h.1) (fieldsRead l d fields h.2)

end

/-- **What is written is read back**, in every layout. -/
theorem read_write {j : Json} (h : j.Writable) (l : Layout) : read (write l j) = .ok j := by
  have reads := reads_chars l 0 j h
  obtain ⟨c, cs, hc, space, -⟩ := reads.starts
  have value := reads.value [] ends_nil ((j.chars l 0).length + 1) (Nat.lt_succ_self _)
  have front : skipSpace (j.chars l 0) = j.chars l 0 := by
    rw [hc]
    exact skipSpace_cons space
  rw [List.append_nil] at value
  simp only [read, write, String.toList_ofList, String.length_ofList, front, value]
  rfl

end GateAsm.Json
