import GateAsm.Json.Writer
import GateAsm.Proofs.Lexing

/-!
# Strings in quotes

A string is written with quotes around it, some of its characters as escapes. Every character is written
in one of three ways (`rawChar_cases`), so that the quotes and the characters are found again both by the
lexer and by the reader of string literals.
-/

namespace GateAsm

namespace Json

def StandsPlain (c : Char) : Prop := c ≠ '"' ∧ c ≠ '\n' ∧ c ≠ '\\'

theorem shortEscape?_eq_some {c e : Char} (h : shortEscape? c = some e) :
    e ≠ '\n' ∧ e ≠ 'u' ∧ unescape? e = some c := by
  unfold shortEscape? at h
  split at h
  · next hc => cases h; subst hc; exact ⟨by decide, by decide, rfl⟩
  split at h
  · next hc => cases h; subst hc; exact ⟨by decide, by decide, rfl⟩
  split at h
  · next hc => cases h; subst hc; exact ⟨by decide, by decide, rfl⟩
  split at h
  · next hc => cases h; subst hc; exact ⟨by decide, by decide, rfl⟩
  split at h
  · next hc => cases h; subst hc; exact ⟨by decide, by decide, rfl⟩
  split at h
  · next hc => cases h; subst hc; exact ⟨by decide, by decide, rfl⟩
  split at h
  · next hc => cases h; subst hc; exact ⟨by decide, by decide, rfl⟩
  · cases h

theorem shortEscape?_eq_none {c : Char} (h : shortEscape? c = none) : StandsPlain c := by
  refine ⟨?_, ?_, ?_⟩ <;> rintro rfl <;> exact absurd h (by decide)

theorem rawChar_cases (c : Char) :
    (∃ e, rawChar c = ['\\', e] ∧ e ≠ '\n' ∧ e ≠ 'u' ∧ unescape? e = some c) ∨
    (rawChar c = [c] ∧ StandsPlain c ∧ ¬ c.toNat < 0x20) ∨
    (rawChar c = '\\' :: 'u' :: Text.hexDigits 4 c.toNat ∧ c.toNat < 0x20) := by
  unfold rawChar
  split
  · next e he => exact .inl ⟨e, rfl, shortEscape?_eq_some he⟩
  · next he =>
    split
    · next hc => exact .inr (.inr ⟨rfl, hc⟩)
    · next hc => exact .inr (.inl ⟨rfl, shortEscape?_eq_none he, hc⟩)

/-! ## Reading a string back -/

theorem unit?_append {cs rest : List Char} {n : Nat} (h : unit? cs = some (n, [])) :
    unit? (cs ++ rest) = some (n, rest) := by
  unfold unit? at h
  split at h
  · next a b c d cs =>
    simp only [List.cons_append, unit?]
    cases ha : hexValue? a <;> cases hb : hexValue? b <;> cases hc : hexValue? c <;> cases hd : hexValue? d <;>
      simp [ha, hb, hc, hd] at h ⊢
    obtain ⟨rfl, rfl⟩ := h
    exact ⟨rfl, rfl⟩
  · cases h

theorem unit?_control : ∀ n < 0x20, unit? (Text.hexDigits 4 n) = some (n, []) := by decide

theorem plain_control : ∀ n < 0x20, ∀ c ∈ Text.hexDigits 4 n, c ≠ '"' ∧ c ≠ '\n' ∧ c ≠ '\\' := by
  have digits : ∀ n < 0x20, (Text.hexDigits 4 n).all (fun c =>
      decide (c ≠ '"' ∧ c ≠ '\n' ∧ c ≠ '\\')) = true := by decide
  intro n hn c hc
  exact of_decide_eq_true (List.all_eq_true.mp (digits n hn) c hc)

theorem stringBody?_rawChar (fuel : Nat) (c : Char) (rest : List Char) :
    stringBody? (fuel + 1) (rawChar c ++ rest) =
      (stringBody? fuel rest).map fun (body, after) => (c :: body, after) := by
  rcases rawChar_cases c with ⟨e, hraw, -, hu, he⟩ | ⟨hraw, hc, hlow⟩ | ⟨hraw, hlow⟩
  · rw [hraw]
    simp [stringBody?, escape?, hu, he]
  · rw [hraw]
    simp [stringBody?, hc.1, hc.2.2, hlow]
  · rw [hraw]
    have hesc : escape? ('u' :: (Text.hexDigits 4 c.toNat ++ rest)) = some (c, rest) := by
      have hhigh : ¬ 0xd800 ≤ c.toNat := by omega
      simp only [escape?, if_true, unit?_append (unit?_control _ hlow), hhigh, decide_false, Bool.false_and,
        Bool.false_eq_true, if_false, unitChar, Char.ofNat_toNat]
    simp [stringBody?, hesc]

theorem stringBody?_raw (cs : List Char) {fuel : Nat} (hf : cs.length < fuel) (rest : List Char) :
    stringBody? fuel (cs.flatMap rawChar ++ '"' :: rest) = some (cs, rest) := by
  induction cs generalizing fuel with
  | nil =>
    cases fuel with
    | zero => cases hf
    | succ fuel => simp [stringBody?]
  | cons c cs ih =>
    cases fuel with
    | zero => cases hf
    | succ fuel =>
      rw [List.flatMap_cons, List.append_assoc, stringBody?_rawChar, ih (Nat.lt_of_succ_lt_succ hf)]
      rfl

theorem length_le_flatMap_rawChar (cs : List Char) : cs.length ≤ (cs.flatMap rawChar).length := by
  induction cs with
  | nil => exact Nat.le_refl _
  | cons c cs ih =>
    have : 1 ≤ (rawChar c).length := by
      rcases rawChar_cases c with ⟨e, hraw, -⟩ | ⟨hraw, -⟩ | ⟨hraw, -⟩ <;> rw [hraw] <;> simp
    rw [List.flatMap_cons, List.length_append, List.length_cons]
    omega

theorem readString?_rawString (s : String) : readString? (rawString s) = some s := by
  have hlen := length_le_flatMap_rawChar s.toList
  have hfuel : s.toList.length < (s.toList.flatMap rawChar ++ ['"']).length + 1 := by
    rw [List.length_append]; omega
  have hread := stringBody?_raw s.toList hfuel []
  unfold readString? rawString
  rw [String.toList_ofList]
  simp only [List.cons_append, hread, String.ofList_toList]

end Json

/-! ## Finding a string in a text -/

namespace Lexeme

theorem string?_plain {c : Char} (hc : Json.StandsPlain c) (cs : List Char) :
    string? (c :: cs) = (string? cs).map fun (body, rest) => (c :: body, rest) :=
  string?.eq_6 c cs hc.1 hc.2.1 hc.2.2

theorem string?_append {ds : List Char} (hds : ∀ c ∈ ds, Json.StandsPlain c) {cs body rest : List Char}
    (h : string? cs = some (body, rest)) : string? (ds ++ cs) = some (ds ++ body, rest) := by
  induction ds with
  | nil => exact h
  | cons d ds ih =>
    rw [List.cons_append, string?_plain (hds d List.mem_cons_self), ih fun c hc => hds c (List.mem_cons_of_mem _ hc)]
    rfl

theorem string?_escaped {e : Char} (he : e ≠ '\n') {cs body rest : List Char} (h : string? cs = some (body, rest)) :
    string? ('\\' :: e :: cs) = some ('\\' :: e :: body, rest) := by
  simp [string?, he, h]

theorem string?_rawChar (c : Char) {cs body rest : List Char} (h : string? cs = some (body, rest)) :
    string? (Json.rawChar c ++ cs) = some (Json.rawChar c ++ body, rest) := by
  rcases Json.rawChar_cases c with ⟨e, hraw, hn, -⟩ | ⟨hraw, hc, -⟩ | ⟨hraw, hlow⟩
  · rw [hraw]
    exact string?_escaped hn h
  · rw [hraw]
    exact string?_append (by simpa using hc) h
  · rw [hraw]
    exact string?_escaped (by decide) (string?_append (Json.plain_control _ hlow) h)

theorem string?_raw (cs rest : List Char) :
    string? (cs.flatMap Json.rawChar ++ '"' :: rest) = some (cs.flatMap Json.rawChar ++ ['"'], rest) := by
  induction cs with
  | nil => rfl
  | cons c cs ih =>
    rw [List.flatMap_cons, List.append_assoc, List.append_assoc]
    exact string?_rawChar c ih

end Lexeme

theorem emits_string (s : String) : Emits (Json.rawString s).toList [⟨.string, Json.rawString s⟩] := by
  have hchars : (Json.rawString s).toList = '"' :: (s.toList.flatMap Json.rawChar ++ ['"']) := by
    unfold Json.rawString
    rw [String.toList_ofList]; rfl
  refine emits_token hchars (by decide) rfl fun rest _ => ?_
  have start : isNameStart '"' = false := by decide
  unfold Lexeme.at?
  rw [if_neg (by simp [start]), if_neg (by decide), if_neg (by decide), if_neg (by decide), if_neg (by decide),
    if_pos rfl, List.append_assoc, List.singleton_append, Lexeme.string?_raw]
  rfl

end GateAsm
