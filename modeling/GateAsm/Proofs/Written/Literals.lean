import GateAsm.Proofs.Floating.ReadBack
import GateAsm.Proofs.Grammar.Literal
import GateAsm.Proofs.Quoting
import GateAsm.Proofs.Written.Types

/-!
# Literals as they are written

A value with a literal is read back from it, a list as a tuple. Values that are read from a text can be
written again, and come back as they are.
-/

namespace GateAsm

namespace Attr

mutual

def Writable : Attr → Prop
  | bool _ => True
  | int n => FewDigits n
  | float x => x.ReadsBack
  | str _ => True
  | symbol (.text n) => IsName n
  | list items => AllWritable items
  | tuple items => AllWritable items
  | _ => False

def AllWritable : List Attr → Prop
  | [] => True
  | a :: items => Writable a ∧ AllWritable items

end

mutual

def tupled : Attr → Attr
  | list items => tuple (tupledAll items)
  | tuple items => tuple (tupledAll items)
  | a => a

def tupledAll : List Attr → List Attr
  | [] => []
  | a :: items => tupled a :: tupledAll items

end

mutual

def form : Attr → LiteralSyntax
  | bool b => .bool b
  | int n => .int (toString n)
  | float x => .float x.text
  | str s => .str (Json.rawString s)
  | symbol name => .symbol ("@" ++ name.display)
  | list items => .list (forms items)
  | tuple items => .list (forms items)
  | _ => .list []

def forms : List Attr → List LiteralSyntax
  | [] => []
  | a :: items => form a :: forms items

end

def literalText (a : Attr) : String := a.literal.toOption.getD ""

theorem literalText_eq {a : Attr} {t : String} (h : a.literal = .ok t) : a.literalText = t := by
  rw [literalText, h]; rfl

theorem itemWords_forms (items : List Attr) :
    LiteralSyntax.itemWords (forms items) = items.map fun a => a.form.words := by
  induction items with
  | nil => rfl
  | cons a items ih => simp only [forms, LiteralSyntax.itemWords, ih, List.map_cons]

theorem emits_list {items : List Attr} (h : ∀ a ∈ items, Emits a.literalText.toList a.form.words) :
    Emits ("[" ++ ", ".intercalate (items.map literalText) ++ "]").toList (LiteralSyntax.list (forms items)).words := by
  have closed : Follows [ ']' ] [.mark .closeBracket] := Emits.nil.behind_mark (c := ']') rfl
  have := (((emits_intercalate items h).append closed).behind_mark (c := '[') rfl).emits
  simpa [LiteralSyntax.words, itemWords_forms] using this

mutual

/-- A writable value has a literal, in which the lexer finds the words of its form. -/
theorem literal_ok : ∀ {a : Attr}, a.Writable → a.literal = .ok a.literalText ∧ Emits a.literalText.toList a.form.words
  | bool b, _ => ⟨rfl, emits_name (by cases b <;> decide)⟩
  | int n, h => by
    rw [literalText_eq (literal_int h)]
    exact ⟨literal_int h, emits_int n⟩
  | float x, h => by
    have hl : (float x).literal = .ok x.text := if_pos h.finite
    rw [literalText_eq hl]
    exact ⟨hl, emits_float h.float⟩
  | str s, _ => ⟨rfl, emits_string s⟩
  | symbol (.text n), h => ⟨rfl, emits_symbol h⟩
  | list items, h => by
    obtain ⟨hl, he⟩ := literals_ok h
    have hlist : (list items).literal = .ok ("[" ++ ", ".intercalate (items.map literalText) ++ "]") := by
      rw [literal, hl]; rfl
    rw [literalText_eq hlist]
    exact ⟨hlist, emits_list he⟩
  | tuple items, h => by
    obtain ⟨hl, he⟩ := literals_ok h
    have hlist : (tuple items).literal = .ok ("[" ++ ", ".intercalate (items.map literalText) ++ "]") := by
      rw [literal, hl]; rfl
    rw [literalText_eq hlist]
    exact ⟨hlist, emits_list he⟩

theorem literals_ok : ∀ {items : List Attr}, AllWritable items →
    literals items = .ok (items.map literalText) ∧ ∀ a ∈ items, Emits a.literalText.toList a.form.words
  | [], _ => ⟨rfl, nofun⟩
  | a :: items, h => by
    obtain ⟨hl, he⟩ := literal_ok h.1
    obtain ⟨hls, hes⟩ := literals_ok h.2
    refine ⟨by rw [literals, hl, hls]; rfl, fun b hb => ?_⟩
    rcases List.mem_cons.mp hb with rfl | hb
    · exact he
    · exact hes b hb

end

mutual

theorem value?_form : ∀ {a : Attr}, a.Writable → a.form.value? = some a.tupled
  | bool _, _ => rfl
  | int n, h => by rw [form, LiteralSyntax.value?, intLiteral?_toString h]; rfl
  | float x, h => by rw [form, LiteralSyntax.value?, h.reads]; rfl
  | str s, _ => by rw [form, LiteralSyntax.value?, Json.readString?_rawString]; rfl
  | symbol (.text n), _ => by
    simp [form, LiteralSyntax.value?, tupled, Label.display]
  | list items, h => by rw [form, LiteralSyntax.value?, values?_forms h]; rfl
  | tuple items, h => by rw [form, LiteralSyntax.value?, values?_forms h]; rfl

theorem values?_forms : ∀ {items : List Attr}, AllWritable items →
    LiteralSyntax.values? (forms items) = some (tupledAll items)
  | [], _ => rfl
  | _ :: _, h => LiteralSyntax.values?_cons_iff.mpr ⟨_, _, value?_form h.1, values?_forms h.2, rfl⟩

end

/-! ## Values that are read -/

mutual

/-- A value that is read can be written, and has no lists. -/
theorem writable_of_value? : ∀ {w : LiteralSyntax} {a : Attr}, (∀ x ∈ w.words, x.Spelled) → w.value? = some a →
    a.Writable ∧ a.tupled = a
  | .int d, a, hs, h => by
    obtain ⟨n, hn, rfl⟩ := Option.map_eq_some_iff.mp h
    exact ⟨fewDigits_of_intLiteral? (hs ⟨.int, d⟩ (by simp [LiteralSyntax.words])) hn, rfl⟩
  | .float d, a, _, h => by
    obtain ⟨x, hx, rfl⟩ := Option.map_eq_some_iff.mp h
    exact ⟨Double.readsBack_of_floatLiteral? hx, rfl⟩
  | .str q, a, _, h => by
    obtain ⟨s, -, rfl⟩ := Option.map_eq_some_iff.mp h
    exact ⟨trivial, rfl⟩
  | .symbol n, a, hs, h => by
    cases h
    exact ⟨hs ⟨.symbolName, n⟩ (by simp [LiteralSyntax.words]), rfl⟩
  | .bool b, a, _, h => by cases h; exact ⟨trivial, rfl⟩
  | .list items, a, hs, h => by
    obtain ⟨vs, hv, rfl⟩ := Option.map_eq_some_iff.mp h
    have spelled : ∀ ws ∈ LiteralSyntax.itemWords items, ∀ x ∈ ws, x.Spelled := by
      intro ws hws x hx
      refine hs x ?_
      rw [LiteralSyntax.words, List.mem_cons, List.mem_append]
      exact .inr (.inl (mem_listed hws hx))
    obtain ⟨hw, ht⟩ := writable_of_values? spelled hv
    exact ⟨hw, by rw [tupled, ht]⟩

theorem writable_of_values? : ∀ {ws : List LiteralSyntax} {vs : List Attr},
    (∀ us ∈ LiteralSyntax.itemWords ws, ∀ x ∈ us, x.Spelled) → LiteralSyntax.values? ws = some vs →
    AllWritable vs ∧ tupledAll vs = vs
  | [], _, _, h => by cases h; exact ⟨trivial, rfl⟩
  | w :: ws, _, hs, h => by
    obtain ⟨v, us, hv, hu, rfl⟩ := LiteralSyntax.values?_cons_iff.mp h
    obtain ⟨hw, ht⟩ := writable_of_value? (fun x hx => hs w.words (by simp [LiteralSyntax.itemWords]) x hx) hv
    obtain ⟨hws, hts⟩ := writable_of_values? (fun vs hvs => hs vs (by simp [LiteralSyntax.itemWords, hvs])) hu
    exact ⟨⟨hw, hws⟩, by rw [tupledAll, ht, hts]⟩

end

end Attr

/-! ## Tags -/

def tupledTags (tags : List (String × Attr)) : List (String × Attr) := tags.map fun e => (e.1, e.2.tupled)

def WritableTags (tags : List (String × Attr)) : Prop := ∀ e ∈ tags, IsName e.1 ∧ e.2.Writable

def tagsForm : List (String × Attr) → Option (List (String × LiteralSyntax))
  | [] => none
  | tags => some (tags.map fun e => (e.1, e.2.form))

def tagText (e : String × Attr) : String := e.1 ++ " = " ++ e.2.literalText

def tagsText (tags : List (String × Attr)) : String :=
  if tags.isEmpty then "" else " \x7b" ++ ", ".intercalate (tags.map tagText) ++ "\x7d"

section
variable {tags attrs : List (String × Attr)} {elided : List String}

theorem tagTexts_eq (h : WritableTags tags) : Printer.tagTexts tags = .ok (tags.map tagText) := by
  induction tags with
  | nil => rfl
  | cons e tags ih =>
    obtain ⟨k, v⟩ := e
    obtain ⟨hl, -⟩ := Attr.literal_ok (h _ List.mem_cons_self).2
    rw [Printer.tagTexts, hl, ih fun e he => h e (List.mem_cons_of_mem _ he)]
    rfl

theorem printer_tags_eq (hf : attrs.filter (fun t => !elided.contains t.1) = tags) (h : WritableTags tags) :
    Printer.tags attrs elided = .ok (tagsText tags) := by
  unfold Printer.tags
  simp only [hf, tagsText]
  split
  · rfl
  · rw [tagTexts_eq h]; rfl

theorem emits_tag {e : String × Attr} (h : IsName e.1 ∧ e.2.Writable) :
    Emits (tagText e).toList (tagWords (e.1, e.2.form)) := by
  obtain ⟨hn, hv⟩ := h
  have := (emits_name hn).append ((((Attr.literal_ok hv).2.behind_space (c := ' ') rfl).emits.behind_mark (c := '=')
    rfl).emits.behind_space (c := ' ') rfl)
  simpa [tagText, tagWords] using this

theorem follows_tags (h : WritableTags tags) : Follows (tagsText tags).toList (bracedWords (tagsForm tags)) := by
  cases tags with
  | nil => exact .nil
  | cons e tags =>
    have closed : Follows [ '\x7d' ] [.mark .closeBrace] := Emits.nil.behind_mark (c := '\x7d') rfl
    have list := emits_intercalate (e :: tags) fun x hx => emits_tag (h x hx)
    have := ((list.append closed).behind_mark (c := '\x7b') rfl).emits.behind_space (c := ' ') rfl
    simpa [tagsText, tagsForm, bracedWords, Function.comp_def] using this

theorem tagValues?_form (h : WritableTags tags) : tagValues? ((tagsForm tags).getD []) = some (tupledTags tags) := by
  have each : tagValues? (tags.map fun e => (e.1, e.2.form)) = some (tupledTags tags) := by
    induction tags with
    | nil => rfl
    | cons e tags ih =>
      exact tagValues?_cons_iff.mpr ⟨_, _, Attr.value?_form (h e List.mem_cons_self).2,
        ih fun x hx => h x (List.mem_cons_of_mem _ hx), rfl⟩
  cases tags with
  | nil => rfl
  | cons e tags => exact each

end

theorem writable_of_tagValues? {es : List (String × LiteralSyntax)} {tags : List (String × Attr)}
    (hs : ∀ e ∈ es, ∀ x ∈ tagWords e, x.Spelled) (h : tagValues? es = some tags) :
    WritableTags tags ∧ tupledTags tags = tags := by
  induction es generalizing tags with
  | nil => cases h; exact ⟨nofun, rfl⟩
  | cons e es ih =>
    obtain ⟨v, new, hv, hnew, rfl⟩ := tagValues?_cons_iff.mp h
    have spelled := hs e List.mem_cons_self
    obtain ⟨hw, ht⟩ := Attr.writable_of_value? (fun x hx => spelled x (by simp [tagWords, hx])) hv
    obtain ⟨hws, hts⟩ := ih (fun d hd => hs d (List.mem_cons_of_mem _ hd)) hnew
    refine ⟨fun d hd => ?_, ?_⟩
    · rcases List.mem_cons.mp hd with rfl | hd
      · exact ⟨spelled ⟨.word, e.1⟩ (by simp [tagWords]), hw⟩
      · exact hws d hd
    · rw [tupledTags, List.map_cons]
      exact congr (congrArg _ (by rw [ht])) hts

theorem keys_tupledTags (tags : List (String × Attr)) : (tupledTags tags).map (·.1) = tags.map (·.1) := by
  simp [tupledTags, Function.comp_def]

theorem addable_tupledTags {reserved : List String} {old tags : List (String × Attr)} (h : Addable reserved old tags) :
    Addable reserved old (tupledTags tags) := by
  obtain ⟨hn, hf⟩ := h
  rw [← keys_tupledTags] at hn
  exact ⟨hn, fun k hk => hf k (keys_tupledTags tags ▸ hk)⟩

end GateAsm
