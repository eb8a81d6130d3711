import GateAsm.Proofs.Tokens.Spaced
import GateAsm.Proofs.Written.Literals

/-!
# Values between other tokens

The literal of a value stands on one line and is read as the value, in front of any token that is a mark. Tags in
braces are read as the entries that were printed, whatever stands behind the braces (`Attr.values_read_back`).
-/

namespace GateAsm

/-! ## Literals on one line -/

theorem newline_notMem_of_lexes {k : TokenKind} {n : String} (hk : k.isVaried = true) (h : Lexes n.toList [⟨k, n⟩]) :
    '\n' ∉ n.toList := by
  obtain ⟨s, hs, hwords⟩ := ofText_of_lexes h
  obtain ⟨t, ts, hts, hword, -⟩ := List.map_eq_cons_iff.mp hwords
  obtain ⟨-, htext⟩ := (Token.word_eq_iff hk).mp hword
  have spelled := TokenStream.spelled hs t (hts ▸ List.mem_cons_self)
  exact htext ▸ newline_notMem_of_mem_language spelled

theorem newline_notMem_intercalate {ts : List String} (h : ∀ t ∈ ts, '\n' ∉ t.toList) :
    '\n' ∉ (", ".intercalate ts).toList := by
  induction ts with
  | nil => simp
  | cons t ts ih =>
    obtain ⟨ht, hts⟩ := List.forall_mem_cons.mp h
    cases ts with
    | nil => simpa using ht
    | cons u ts =>
      have rest := ih hts
      simp only [String.intercalate_cons_cons, String.toList_append, List.mem_append, not_or]
      exact ⟨⟨ht, by decide⟩, rest⟩

namespace Attr

theorem newline_notMem_brackets {items : List Attr} (h : ∀ a ∈ items, '\n' ∉ a.literalText.toList) :
    '\n' ∉ ("[" ++ ", ".intercalate (items.map literalText) ++ "]").toList := by
  have inside := newline_notMem_intercalate (List.forall_mem_map.mpr h)
  simp only [String.toList_append, List.mem_append, not_or]
  exact ⟨⟨by decide, inside⟩, by decide⟩

mutual

theorem newline_notMem_literal : ∀ {a : Attr}, a.Writable → '\n' ∉ a.literalText.toList
  | bool b, _ => by cases b <;> decide
  | int n, h => by
    rw [literalText_eq (literal_int h)]
    exact newline_notMem_of_lexes rfl (emits_int n).lexes
  | float x, h => by
    have hl : (float x).literal = .ok x.text := if_pos h.finite
    rw [literalText_eq hl]
    exact newline_notMem_of_lexes rfl (emits_float h.float).lexes
  | str s, _ => newline_notMem_of_lexes rfl (emits_string s).lexes
  | symbol (.text n), h => newline_notMem_of_lexes rfl (emits_symbol h).lexes
  | list items, h => by
    have hl : (list items).literal = .ok ("[" ++ ", ".intercalate (items.map literalText) ++ "]") := by
      rw [literal, (literals_ok h).1]; rfl
    rw [literalText_eq hl]
    exact newline_notMem_brackets (newline_notMem_literals h)
  | tuple items, h => by
    have hl : (tuple items).literal = .ok ("[" ++ ", ".intercalate (items.map literalText) ++ "]") := by
      rw [literal, (literals_ok h).1]; rfl
    rw [literalText_eq hl]
    exact newline_notMem_brackets (newline_notMem_literals h)

theorem newline_notMem_literals : ∀ {items : List Attr}, AllWritable items → ∀ a ∈ items, '\n' ∉ a.literalText.toList
  | [], _ => nofun
  | _ :: _, h => List.forall_mem_cons.mpr ⟨newline_notMem_literal h.1, newline_notMem_literals h.2⟩

end

/-! ## Literals in front of marks -/

open GateAsm.Parser (Yields nextKind)

theorem literal_reads_back {v : Attr} (h : v.Writable) : ∃ text, v.literal = .ok text ∧ '\n' ∉ text.toList ∧
    ∀ after sa, TokenStream.ofText after = .ok sa → (nextKind sa.tokens).isVaried = false →
      ∃ all rest, TokenStream.ofText (text ++ after) = .ok all ∧
      rest.map Token.spelling = sa.tokens.map Token.spelling ∧
        ∀ s : ParserState, s.rest = all.tokens → Yields Parser.literal s v.tupled (s.facing rest) := by
  obtain ⟨hl, emits⟩ := literal_ok h
  refine ⟨v.literalText, hl, newline_notMem_literal h, fun after sa ha hmark => ?_⟩
  -- in front of a mark no token goes on
  have stops : Stops after.toList := by
    refine stops_of_lexes (lexes_of_ofText ha).1 fun w hw => ?_
    cases hts : sa.tokens with
    | nil => rw [hts] at hw; cases hw
    | cons t ts =>
      rw [hts] at hw hmark
      cases hw
      exact hmark
  obtain ⟨all, rest, hall, hsplit, hrest⟩ := TokenStream.ofText_in_front ha fun vs hl => emits _ vs stops hl
  exact ⟨all, rest, hall, hrest, fun s hs => Parser.yields_literal.mpr ⟨v.form, rest, hs ▸ hsplit, value?_form h, rfl⟩⟩

end Attr

/-! ## Tags in front of anything -/

section
variable {tags : List (String × Attr)} {rest : List Char} {vs : List Word}

theorem lexes_tags (h : WritableTags tags) (hl : Lexes rest vs) :
    Lexes ((tagsText tags).toList ++ rest) (bracedWords (tagsForm tags) ++ vs) := by
  cases tags with
  | nil => exact hl
  | cons e tags =>
    have list := emits_intercalate (e :: tags) fun x hx => emits_tag (h x hx)
    have braces := (list.closed (c := '\x7d') rfl hl).mark (c := '\x7b') rfl
    have := Lexes.gap (c := ' ') (g := [' ']) rfl braces
    simpa [tagsText, tagsForm, bracedWords, Function.comp_def] using this

end

open GateAsm.Parser (Yields nextKind)

theorem tags_read_back {attrs : List (String × Attr)} {elided : List String}
    (h : ∀ e ∈ attrs, e.1 ∉ elided → IsName e.1 ∧ e.2.Writable) (hd : (attrs.map (·.1)).Nodup) :
    ∃ text, Printer.tags attrs elided = .ok text ∧ ∀ after sa, TokenStream.ofText after = .ok sa →
      ((∀ e ∈ attrs, e.1 ∈ elided) → nextKind sa.tokens ≠ .openBrace) →
      ∃ all rest, TokenStream.ofText (text ++ after) = .ok all ∧
      rest.map Token.spelling = sa.tokens.map Token.spelling ∧
        ∀ (s : ParserState) (reserved : List String), s.rest = all.tokens →
          (∀ e ∈ attrs, e.1 ∉ elided → e.1 ∉ reserved ∧ e.1 ∉ s.tags.map (·.1)) →
          Yields (Parser.optionalTags reserved) s ()
            ((s.withTags (s.tags ++ tupledTags (attrs.filter fun e => !elided.contains e.1))).facing rest) := by
  let kept := attrs.filter fun e => !elided.contains e.1
  have mem_kept : ∀ e, e ∈ kept ↔ e ∈ attrs ∧ e.1 ∉ elided := fun e => by simp [kept]
  have writable : WritableTags kept := fun e he => h e ((mem_kept e).mp he).1 ((mem_kept e).mp he).2
  refine ⟨tagsText kept, printer_tags_eq rfl writable, fun after sa ha hbrace => ?_⟩
  obtain ⟨all, rest, hall, hsplit, hrest⟩ := TokenStream.ofText_in_front ha fun vs hl => lexes_tags writable hl
  refine ⟨all, rest, hall, hrest, fun s reserved hs hfree => ?_⟩
  have addable : Addable reserved s.tags kept := by
    refine ⟨hd.sublist (List.filter_sublist.map _), fun k hk => ?_⟩
    obtain ⟨e, he, rfl⟩ := List.mem_map.mp hk
    exact hfree e ((mem_kept e).mp he).1 ((mem_kept e).mp he).2
  -- without tags no braces are written, and then none may stand behind
  have ends : tagsForm kept = none → nextKind rest ≠ .openBrace := by
    intro hnone
    rw [Token.nextKind_of_spellings hrest]
    refine hbrace fun e he => Decidable.byContradiction fun hk => ?_
    have he := (mem_kept e).mpr ⟨he, hk⟩
    cases hkept : kept with
    | nil => rw [hkept] at he; cases he
    | cons e kept => rw [hkept] at hnone; cases hnone
  exact Parser.yields_optionalTags.mpr ⟨tagsForm kept, _, rest, hs ▸ hsplit, tagValues?_form writable,
    addable_tupledTags addable, ends, rfl⟩

/-- **Values are read as they are written.** A value that can be written has a literal on one line, and in front of a
mark the literal is read as the value, with tuples in place of lists, up to the mark. Of tags, those that are not left
out are read in their order behind those that are there already. -/
theorem Attr.values_read_back :
    (∀ v : Attr, v.Writable → ∃ text, v.literal = .ok text ∧ '\n' ∉ text.toList ∧
      ∀ after sa, TokenStream.ofText after = .ok sa → (nextKind sa.tokens).isVaried = false →
        ∃ all rest, TokenStream.ofText (text ++ after) = .ok all ∧
        rest.map Token.spelling = sa.tokens.map Token.spelling ∧
          ∀ s : ParserState, s.rest = all.tokens → Yields Parser.literal s v.tupled (s.facing rest)) ∧
    ∀ (attrs : List (String × Attr)) (elided : List String), (∀ e ∈ attrs, e.1 ∉ elided → IsName e.1 ∧ e.2.Writable) →
      (attrs.map (·.1)).Nodup → ∃ text, Printer.tags attrs elided = .ok text ∧
        ∀ after sa, TokenStream.ofText after = .ok sa →
          ((∀ e ∈ attrs, e.1 ∈ elided) → nextKind sa.tokens ≠ .openBrace) →
          ∃ all rest, TokenStream.ofText (text ++ after) = .ok all ∧
          rest.map Token.spelling = sa.tokens.map Token.spelling ∧
            ∀ (s : ParserState) (reserved : List String), s.rest = all.tokens →
              (∀ e ∈ attrs, e.1 ∉ elided → e.1 ∉ reserved ∧ e.1 ∉ s.tags.map (·.1)) →
              Yields (Parser.optionalTags reserved) s ()
                ((s.withTags (s.tags ++ tupledTags (attrs.filter fun e => !elided.contains e.1))).facing rest) :=
  ⟨fun _ => literal_reads_back, fun _ _ => tags_read_back⟩

/-- A list with a string that needs escapes in front of a brace, and tags with one left out in front of a type. -/
theorem Attr.values_read_back_list :
    (∃ text all rest, (Attr.list [.str "a\"\\\n", .int (-1), .float ⟨0xC45193E5939A08CA⟩,
      .symbol (.text "f.0")]).literal = .ok text ∧
      TokenStream.ofText (text ++ "\x7d") = .ok all ∧ Yields Parser.literal (.start all .default .empty)
        (.tuple [.str "a\"\\\n", .int (-1), .float ⟨0xC45193E5939A08CA⟩, .symbol (.text "f.0")])
        ((ParserState.start all .default .empty).facing rest)) ∧
    ∃ text all rest, Printer.tags [("phi", .int 2), ("b.$", .list [.bool true])] ["phi"] = .ok text ∧
      TokenStream.ofText (text ++ ": i8") = .ok all ∧
      Yields (Parser.optionalTags ["phi"]) (.start all .default .empty) ()
        (((ParserState.start all .default .empty).withTags [("b.$", .tuple [.bool true])]).facing rest) := by
  obtain ⟨literal, tags⟩ := Attr.values_read_back
  constructor
  · have float : Double.ReadsBack ⟨0xC45193E5939A08CA⟩ := Double.readsBack_iff.mpr (by decide +kernel)
    have few : FewDigits (-1) := Nat.lt_of_lt_of_le (by decide : 1 < 10 ^ 1)
      (Nat.pow_le_pow_right (by decide) (by decide))
    have name : IsName "f.0" := ⟨'f', ['.', '0'], rfl, rfl, List.all_eq_true.mp rfl⟩
    obtain ⟨text, hl, -, read⟩ := literal
      (.list [.str "a\"\\\n", .int (-1), .float ⟨0xC45193E5939A08CA⟩, .symbol (.text "f.0")])
      ⟨trivial, few, float, name, trivial⟩
    have brace : TokenStream.ofText "\x7d" = .ok ⟨[⟨.closeBrace, "\x7d", ⟨1, 1, 0⟩⟩], ⟨1, 2, 1⟩⟩ := rfl
    obtain ⟨all, rest, hall, -, yields⟩ := read _ _ brace rfl
    exact ⟨text, all, rest, hl, hall, yields _ rfl⟩
  · have name : IsName "b.$" := ⟨'b', ['.', '$'], rfl, rfl, List.all_eq_true.mp rfl⟩
    have shown : ∀ e ∈ [("phi", Attr.int 2), ("b.$", .list [.bool true])], e.1 ∉ ["phi"] →
        IsName e.1 ∧ e.2.Writable := by
      simp only [List.forall_mem_cons, List.not_mem_nil, false_implies, implies_true, and_true]
      exact ⟨fun h => absurd (List.mem_singleton_self _) h, fun _ => ⟨name, trivial, trivial⟩⟩
    obtain ⟨text, htext, read⟩ := tags _ ["phi"] shown (by decide)
    have behind : TokenStream.ofText ": i8" = .ok ⟨[⟨.colon, ":", ⟨1, 1, 0⟩⟩, ⟨.word, "i8", ⟨1, 3, 2⟩⟩],
        ⟨1, 5, 4⟩⟩ := rfl
    obtain ⟨all, rest, hall, -, yields⟩ := read _ _ behind fun _ => nofun
    exact ⟨text, all, rest, htext, hall, yields _ ["phi"] rfl fun _ _ h => ⟨h, List.not_mem_nil⟩⟩

end GateAsm
