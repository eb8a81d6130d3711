import GateAsm.Proofs.Floating.Numerals
import GateAsm.Proofs.Grammar.Word

/-!
# Floats read back

A numeral is a token of its own, a float. So every finite number has a text that reads back, and there is no
other number of which that holds.
-/

namespace GateAsm

open Floating

namespace Floating.Numeral

variable (n : Numeral)

theorem exponentPart_tail : exponentPart n.tail = (n.tail, []) := by
  unfold tail
  cases hexp : n.exponent with
  | none => rfl
  | some x =>
    obtain ⟨negative, ds⟩ := x
    obtain ⟨hne, hds⟩ := n.exponentDigits _ hexp
    obtain ⟨htake, hdrop⟩ := @takeWhile_digits ds [] hds nofun
    rw [List.append_nil] at htake hdrop
    have sign : signPart ((if negative then '-' else '+') :: ds) = ([if negative then '-' else '+'], ds) := by
      cases negative <;> rfl
    have digits : ds.isEmpty = false := by simpa using hne
    simp [exponentPart, sign, htake, hdrop, digits]

theorem number?_chars : Lexeme.number? n.chars = some ⟨.float, n.chars, []⟩ := by
  obtain ⟨htake, hdrop⟩ := takeWhile_digits n.wholeDigits n.rest_head
  obtain ⟨htake', hdrop'⟩ := takeWhile_digits n.fractionDigits n.tail_head
  obtain ⟨c, cs, hw, -⟩ := n.canonical
  have nonempty : n.whole.isEmpty = false := by rw [hw]; rfl
  have exponent := n.exponentPart_tail
  unfold Lexeme.number?
  dsimp only
  rw [show n.chars = n.whole ++ (n.point ++ n.tail) from rfl, htake, hdrop, nonempty, if_neg (by decide)]
  rcases n.point_spec with ⟨hf, hp⟩ | hp
  · have hexp : n.tail ≠ [] := by
      have := n.float.resolve_left (not_not.mpr hf)
      unfold tail
      cases hx : n.exponent with
      | none => rw [hx] at this; cases this
      | some x => exact List.cons_ne_nil _ _
    rw [hp, List.nil_append]
    obtain ⟨cs, ht⟩ := n.tail_spec.resolve_left hexp
    rw [ht] at exponent ⊢
    simp [exponent]
  · rw [hp, List.cons_append]
    simp only
    rw [htake', hdrop', exponent]
    simp

theorem isFloat_chars {text : String} {negative : Bool}
    (h : text.toList = (if negative then ['-'] else []) ++ n.chars) :
    IsFloat text := by
  obtain ⟨c, cs, hw, -⟩ := n.canonical
  have digit := n.wholeDigits c (hw ▸ List.mem_cons_self)
  have found := n.number?_chars
  have first : n.chars = c :: (cs ++ (n.point ++ n.tail)) := by rw [chars, hw]; rfl
  obtain ⟨hstart, hpercent, hsymbol, -⟩ := digit_spec digit
  cases negative with
  | false =>
    refine ⟨c, cs ++ (n.point ++ n.tail), h.trans first, ?_⟩
    unfold Lexeme.at?
    rw [if_neg (by simp [hstart]), if_neg hpercent, if_neg hsymbol, if_pos digit, ← first, found, first]
    rfl
  | true =>
    refine ⟨'-', n.chars, h, ?_⟩
    unfold Lexeme.at?
    rw [if_neg (by decide), if_neg (by decide), if_neg (by decide), if_neg (by decide), if_pos rfl]
    split
    · next heq =>
      rw [first] at heq
      cases heq
      exact absurd digit (by decide)
    · exact found

end Floating.Numeral

theorem Floating.ofLiteral?_lt {f : Format} (hf : 1 < f.reserved) {text : List Char} {bits : Nat}
    (h : Floating.ofLiteral? f text = some bits) : bits < 2 * f.signWeight := by
  have decimal (negative : Bool) (digits : Nat) (x : Int) : readDecimal f negative digits x < 2 * f.signWeight := by
    unfold readDecimal
    dsimp only
    split
    · exact Format.round_lt hf negative one_pos
    · split
      · exact f.infinity_lt negative
      · split
        · exact Format.round_lt hf negative one_pos
        · exact Format.round_lt hf negative (Nat.pow_pos (by decide))
  unfold Floating.ofLiteral? at h
  dsimp only at h
  split at h <;> split at h
  · cases h
  · obtain ⟨e, -, rfl⟩ := Option.map_eq_some_iff.mp h
    exact decimal ..
  · cases h
  · obtain ⟨e, -, rfl⟩ := Option.map_eq_some_iff.mp h
    exact decimal ..

theorem bits_lt_of_floatLiteral? {text : String} {x : Double} (h : floatLiteral? text = some x) : x.bits < 2 ^ 64 := by
  obtain ⟨bits, hbits, rfl⟩ := Option.map_eq_some_iff.mp (Option.filter_eq_some_iff.mp h).1
  exact Floating.ofLiteral?_lt (by decide +kernel) hbits

/-- The text of the number is a float as a whole and spells the same number. -/
structure Double.ReadsBack (x : Double) : Prop where
  float : IsFloat x.text
  reads : floatLiteral? x.text = some x

theorem Double.ReadsBack.finite {x : Double} (h : x.ReadsBack) : x.isFinite = true :=
  (Option.filter_eq_some_iff.mp h.reads).2

/-- **The numbers whose text reads back** are those that are finite. -/
theorem Double.readsBack_iff {x : Double} : x.ReadsBack ↔ x.isFinite = true ∧ x.bits < 2 ^ 64 := by
  constructor
  · exact fun h => ⟨h.finite, bits_lt_of_floatLiteral? h.reads⟩
  · rintro ⟨hfinite, hbits⟩
    obtain ⟨negative, n, hchars, hread⟩ := Style.text_numeral (s := .plain) (by decide) hfinite hbits
    refine ⟨n.isFloat_chars hchars, ?_⟩
    have value : Double.ofLiteral? x.text = some x := by
      unfold Double.ofLiteral?
      rw [show x.text.toList = _ from hchars, n.ofLiteral?_chars, hread]
      rfl
    rw [floatLiteral?, value, Option.filter_some, if_pos hfinite]

theorem Double.readsBack_of_floatLiteral? {text : String} {x : Double} (h : floatLiteral? text = some x) :
    x.ReadsBack :=
  readsBack_iff.mpr ⟨(Option.filter_eq_some_iff.mp h).2, bits_lt_of_floatLiteral? h⟩

end GateAsm
