import GateAsm.Proofs.Floating.ReadBack
import GateAsm.Proofs.Quoting

/-!
# Scalars of JSON

The ASCII form of a string is read back, with one or two escapes for a character that is not printable, and so
are integers and floats. What follows a number must not go on with it (`Json.Ends`).
-/

namespace GateAsm

/-! ## Signs -/

namespace Floating

variable {f : Format} (negative : Bool)

theorem Format.encode_sign (m : Nat) (e : Int) :
    f.encode negative m e = f.encode false m e + if negative then f.signWeight else 0 := by
  unfold Format.encode
  dsimp only
  rw [if_neg Bool.false_ne_true, Nat.zero_add, Nat.zero_add]
  split
  · exact Nat.add_comm _ _
  · rw [Nat.add_assoc, Nat.add_comm]

theorem Format.infinity_sign : f.infinity negative = f.infinity false + if negative then f.signWeight else 0 := by
  unfold Format.infinity
  rw [if_neg Bool.false_ne_true, Nat.zero_add, Nat.add_comm]

theorem Format.round_sign (num den : Nat) :
    f.round negative num den = f.round false num den + if negative then f.signWeight else 0 := by
  have bounded (m : Nat) (e : Int) :
      (if (f.reserved : Int) ≤ e - f.minExponent + 1 then f.infinity negative else f.encode negative m e) =
        (if (f.reserved : Int) ≤ e - f.minExponent + 1 then f.infinity false else f.encode false m e) +
          if negative then f.signWeight else 0 := by
    split
    · exact Format.infinity_sign negative
    · exact Format.encode_sign negative m e
  unfold Format.round
  dsimp only
  split
  · exact Format.encode_sign negative _ _
  · exact bounded _ _

theorem readDecimal_sign (digits : Nat) (x : Int) :
    readDecimal f negative digits x = readDecimal f false digits x + if negative then f.signWeight else 0 := by
  unfold readDecimal
  dsimp only
  split
  · exact Format.round_sign negative _ _
  · split
    · exact Format.infinity_sign negative
    · split
      · exact Format.round_sign negative _ _
      · exact Format.round_sign negative _ _

theorem Format.infinity_decode {bits : Nat} {s : Bool} (hbits : bits < 2 * f.signWeight)
    (h : f.decode bits = .infinite s) :
    f.infinity s = bits := by
  have whole := f.bits_eq hbits
  unfold Format.decode at h
  dsimp only at h
  split at h
  · next hreserved =>
    split at h
    · next hzero =>
      cases h
      rw [hreserved, hzero, Nat.add_zero] at whole
      simpa [Format.infinity] using whole
    · cases h
  · split at h <;> cases h

end Floating

def Double.quiet (x : Double) : Double := if x.number = .nan then ⟨Floating.Format.double.quietNaN⟩ else x

theorem Double.quiet_quiet (x : Double) : x.quiet.quiet = x.quiet := by
  unfold quiet
  split
  · exact ite_self _
  · rfl

theorem Double.quiet_lt {x : Double} (h : x.bits < 2 ^ 64) : x.quiet.bits < 2 ^ 64 := by
  unfold quiet
  split
  · decide
  · exact h

theorem Double.jsonText_quiet (x : Double) : x.quiet.jsonText = x.jsonText := by
  unfold quiet
  split
  · next h =>
    unfold jsonText
    rw [h]
    rfl
  · rfl

namespace Json

/-! ## Escapes -/

theorem hexValue?_hexDigit : ∀ d < 16, hexValue? (Text.hexDigit d) = some d := by decide

theorem unit?_hexDigits {n : Nat} (h : n < 0x10000) (rest : List Char) :
    unit? (Text.hexDigits 4 n ++ rest) = some (n, rest) := by
  have digit (m : Nat) : hexValue? (Text.hexDigit (m % 16)) = some (m % 16) :=
    hexValue?_hexDigit _ (Nat.mod_lt _ (by decide))
  simp only [Text.hexDigits, List.nil_append, List.cons_append, unit?, digit, Option.bind_eq_bind, Option.bind_some,
    Option.some.injEq, Prod.mk.injEq, and_true]
  omega

theorem toNat_valid (c : Char) : c.toNat < 0xd800 ∨ 0xdfff < c.toNat ∧ c.toNat < 0x110000 := c.valid

/-- A character is written as an escape with a letter, as itself, as one unit, or as a pair of units. -/
theorem asciiChar_cases (c : Char) :
    (∃ e, asciiChar c = ['\\', e] ∧ e ≠ 'u' ∧ unescape? e = some c) ∨
    (asciiChar c = [c] ∧ StandsPlain c ∧ ¬ c.toNat < 0x20) ∨
    (asciiChar c = unitEscape c.toNat ∧ c.toNat < 0x10000) ∨
    (asciiChar c = unitEscape (0xd800 + (c.toNat - 0x10000) / 0x400) ++
      unitEscape (0xdc00 + (c.toNat - 0x10000) % 0x400) ∧
      0x10000 ≤ c.toNat) := by
  unfold asciiChar
  split
  · next e he => exact .inl ⟨e, rfl, (shortEscape?_eq_some he).2⟩
  · next he =>
    split
    · next hc =>
      simp only [Bool.and_eq_true, decide_eq_true_eq] at hc
      exact .inr (.inl ⟨rfl, shortEscape?_eq_none he, Nat.not_lt.mpr hc.1⟩)
    · split
      · next hc => exact .inr (.inr (.inl ⟨rfl, hc⟩))
      · next hc => exact .inr (.inr (.inr ⟨rfl, Nat.le_of_not_lt hc⟩))

theorem escape?_whole {n : Nat} {cs rest : List Char} (hu : unit? cs = some (n, rest)) (hn : n < 0xd800 ∨ 0xdfff < n) :
    escape? ('u' :: cs) = some (Char.ofNat n, rest) := by
  have first : (decide (0xd800 ≤ n) && decide (n < 0xdc00)) = false := by
    simp only [Bool.and_eq_false_iff, decide_eq_false_iff_not]
    omega
  have all : (decide (0xd800 ≤ n) && decide (n < 0xe000)) = false := by
    simp only [Bool.and_eq_false_iff, decide_eq_false_iff_not]
    omega
  simp only [escape?, if_true, hu, first, Bool.false_eq_true, if_false, unitChar, all]

theorem escape?_halves {high low : Nat} {cs more rest : List Char} (hh : unit? cs = some (high, '\\' :: 'u' :: more))
    (hl : unit? more = some (low, rest)) (hhigh : 0xd800 ≤ high ∧ high < 0xdc00) (hlow : 0xdc00 ≤ low ∧ low < 0xe000) :
    escape? ('u' :: cs) = some (Char.ofNat (0x10000 + (high - 0xd800) * 0x400 + (low - 0xdc00)), rest) := by
  have lead : (decide (0xd800 ≤ high) && decide (high < 0xdc00)) = true := by
    simp only [Bool.and_eq_true, decide_eq_true_eq]
    exact hhigh
  have trail : (decide (0xdc00 ≤ low) && decide (low < 0xe000)) = true := by
    simp only [Bool.and_eq_true, decide_eq_true_eq]
    exact hlow
  simp only [escape?, if_true, hh, lead, hl, trail]

theorem escape?_unit {c : Char} (h : c.toNat < 0x10000) (rest : List Char) :
    escape? ('u' :: (Text.hexDigits 4 c.toNat ++ rest)) = some (c, rest) := by
  have valid := toNat_valid c
  rw [escape?_whole (unit?_hexDigits h rest) (by omega), Char.ofNat_toNat]

theorem escape?_pair {n : Nat} (h : 0x10000 ≤ n ∧ n < 0x110000) (rest : List Char) :
    escape? ('u' :: (Text.hexDigits 4 (0xd800 + (n - 0x10000) / 0x400) ++
      (unitEscape (0xdc00 + (n - 0x10000) % 0x400) ++ rest))) = some (Char.ofNat n, rest) := by
  generalize hm : n - 0x10000 = m
  have high : 0xd800 + m / 0x400 < 0xdc00 := by omega
  have low : 0xdc00 + m % 0x400 < 0xe000 := by omega
  have sum : 0x10000 + (0xd800 + m / 0x400 - 0xd800) * 0x400 + (0xdc00 + m % 0x400 - 0xdc00) = n := by omega
  have lead := unit?_hexDigits (show 0xd800 + m / 0x400 < 0x10000 by omega) (unitEscape (0xdc00 + m % 0x400) ++ rest)
  have trail := unit?_hexDigits (show 0xdc00 + m % 0x400 < 0x10000 by omega) rest
  have pair := escape?_halves lead trail ⟨by omega, high⟩ ⟨by omega, low⟩
  rw [pair, sum]

/-! ## Strings -/

theorem stringBody?_escape {c : Char} {cs rest : List Char} (h : escape? cs = some (c, rest)) (fuel : Nat) :
    stringBody? (fuel + 1) ('\\' :: cs) = (stringBody? fuel rest).map fun (body, after) => (c :: body, after) := by
  simp [stringBody?, h]

theorem stringBody?_asciiChar (fuel : Nat) (c : Char) (rest : List Char) :
    stringBody? (fuel + 1) (asciiChar c ++ rest) =
      (stringBody? fuel rest).map fun (body, after) => (c :: body, after) := by
  rcases asciiChar_cases c with ⟨e, hc, hu, he⟩ | ⟨hc, plain, high⟩ | ⟨hc, hn⟩ | ⟨hc, hn⟩
  · rw [hc]
    exact stringBody?_escape (by simp [escape?, hu, he]) fuel
  · rw [hc]
    simp [stringBody?, plain.1, plain.2.2, high]
  · rw [hc]
    exact stringBody?_escape (escape?_unit hn rest) fuel
  · have valid := toNat_valid c
    have pair := escape?_pair (n := c.toNat) ⟨hn, by omega⟩ rest
    rw [Char.ofNat_toNat] at pair
    rw [hc, List.append_assoc]
    exact stringBody?_escape pair fuel

theorem stringBody?_ascii (cs : List Char) {fuel : Nat} (hf : cs.length < fuel) (rest : List Char) :
    stringBody? fuel (cs.flatMap asciiChar ++ '"' :: rest) = some (cs, rest) := by
  induction cs generalizing fuel with
  | nil =>
    cases fuel with
    | zero => cases hf
    | succ fuel => simp [stringBody?]
  | cons c cs ih =>
    cases fuel with
    | zero => cases hf
    | succ fuel =>
      rw [List.flatMap_cons, List.append_assoc, stringBody?_asciiChar, ih (Nat.lt_of_succ_lt_succ hf)]
      rfl

theorem length_le_flatMap_asciiChar (cs : List Char) : cs.length ≤ (cs.flatMap asciiChar).length := by
  induction cs with
  | nil => exact Nat.le_refl _
  | cons c cs ih =>
    have : 1 ≤ (asciiChar c).length := by
      rcases asciiChar_cases c with ⟨e, hc, -⟩ | ⟨hc, -⟩ | ⟨hc, -⟩ | ⟨hc, -⟩ <;> rw [hc] <;> simp [unitEscape]
    rw [List.flatMap_cons, List.length_append, List.length_cons]
    omega

theorem stringBody?_stringChars (s : String) (rest : List Char) :
    ∃ cs, stringChars s ++ rest = '"' :: cs ∧ stringBody? (cs.length + 1) cs = some (s.toList, rest) := by
  refine ⟨s.toList.flatMap asciiChar ++ '"' :: rest, by simp [stringChars], ?_⟩
  have hlen := length_le_flatMap_asciiChar s.toList
  refine stringBody?_ascii s.toList ?_ rest
  rw [List.length_append]
  omega

/-! ## Numbers -/

/-- Nothing stands at the front that would go on with a number. -/
def Ends (rest : List Char) : Prop := ∀ c ∈ rest.head?, c.isDigit = false ∧ c ≠ '.' ∧ c ≠ 'e' ∧ c ≠ 'E'

theorem ends_nil : Ends [] := nofun

theorem ends_cons {c : Char} {cs : List Char} (h : c.isDigit = false ∧ c ≠ '.' ∧ c ≠ 'e' ∧ c ≠ 'E') :
    Ends (c :: cs) := by
  intro d hd
  cases hd
  exact h

section
variable {rest : List Char} (hr : Ends rest)
include hr

theorem exponentPart_ends : Floating.exponentPart rest = ([], rest) := by
  cases rest with
  | nil => rfl
  | cons c cs =>
    obtain ⟨-, -, he, hE⟩ := hr c rfl
    simp [Floating.exponentPart, he, hE]

theorem exponentPart_numeral (n : Floating.Numeral) : Floating.exponentPart (n.tail ++ rest) = (n.tail, rest) := by
  unfold Floating.Numeral.tail
  cases hexp : n.exponent with
  | none => exact exponentPart_ends hr
  | some x =>
    obtain ⟨negative, ds⟩ := x
    obtain ⟨hne, hds⟩ := n.exponentDigits _ hexp
    obtain ⟨htake, hdrop⟩ := Floating.Numeral.takeWhile_digits hds fun c hc => (hr c hc).1
    have sign : Floating.signPart ((if negative then '-' else '+') :: (ds ++ rest)) =
        ([if negative then '-' else '+'], ds ++ rest) := by
      cases negative <;> rfl
    have digits : ds.isEmpty = false := List.isEmpty_eq_false_iff.mpr hne
    simp [Floating.exponentPart, sign, htake, hdrop, digits]

theorem fractionPart_ends : fractionPart rest = ([], rest) := by
  unfold fractionPart
  split
  · next cs => exact absurd rfl (hr '.' rfl).2.1
  · rfl

end

theorem wholePart_digits {ds more : List Char} (hds : ∀ c ∈ ds, c.isDigit = true)
    (hcanonical : ∃ c cs, ds = c :: cs ∧ (c = '0' → cs = [])) (hmore : ∀ c ∈ more.head?, c.isDigit = false) :
    wholePart (ds ++ more) = (ds, more) := by
  obtain ⟨c, cs, rfl, hzero⟩ := hcanonical
  obtain ⟨htake, hdrop⟩ := Floating.Numeral.takeWhile_digits hds hmore
  rw [wholePart.eq_def]
  split
  · next heq =>
    obtain ⟨rfl, rfl⟩ := List.cons_eq_cons.mp heq
    rw [hzero rfl]
    rfl
  · rw [htake, hdrop]

theorem canonical_toDigits (n : Nat) : ∃ c cs, Nat.toDigits 10 n = c :: cs ∧ (c = '0' → cs = []) := by
  by_cases hn : 0 < n
  · obtain ⟨c, cs, h, hc⟩ := Floating.toDigits_head hn
    exact ⟨c, cs, h, fun h0 => absurd h0 hc⟩
  · obtain rfl : n = 0 := by omega
    exact ⟨'0', [], rfl, fun _ => rfl⟩

theorem numberAt_toDigits {n : Nat} (h : n < 10 ^ maxIntegerDigits) (negative : Bool) {rest : List Char}
    (hr : Ends rest) :
    numberAt negative (Nat.toDigits 10 n ++ rest) = .ok (.int (if negative then -(n : Int) else n), rest) := by
  have digits : ∀ c ∈ Nat.toDigits 10 n, c.isDigit = true :=
    fun c => Nat.isDigit_of_mem_toDigits (by decide) (by decide)
  have whole := wholePart_digits digits (canonical_toDigits n) fun c hc => (hr c hc).1
  have nonempty : (Nat.toDigits 10 n).isEmpty = false := List.isEmpty_eq_false_iff.mpr Nat.toDigits_ne_nil
  have few : ¬ maxIntegerDigits < (Nat.toDigits 10 n).length :=
    Nat.not_lt.mpr ((Nat.length_toDigits_le_iff (by decide) (by decide)).mpr h)
  simp only [numberAt, whole, nonempty, fractionPart_ends hr, exponentPart_ends hr, List.isEmpty_nil, Bool.and_self,
    Bool.false_eq_true, if_false, if_true, if_neg few, signed, natOfDigits_toDigits]

theorem forall_head?_append {P : Char → Prop} {cs ds : List Char} (hc : ∀ c ∈ cs.head?, P c)
    (hd : ∀ c ∈ ds.head?, P c) :
    ∀ c ∈ (cs ++ ds).head?, P c := by
  cases cs with
  | nil => exact hd
  | cons c cs => exact hc

theorem numberAt_numeral (n : Floating.Numeral) (negative : Bool) {rest : List Char} (hr : Ends rest) :
    numberAt negative (n.chars ++ rest) =
      .ok (.float ⟨Floating.readDecimal .double negative n.digits n.scale⟩, rest) := by
  have stops : ∀ c ∈ rest.head?, c.isDigit = false := fun c hc => (hr c hc).1
  have whole : wholePart (n.chars ++ rest) = (n.whole, n.point ++ (n.tail ++ rest)) := by
    have behind := forall_head?_append n.rest_head stops
    rw [Floating.Numeral.chars, List.append_assoc, wholePart_digits n.wholeDigits n.canonical behind, List.append_assoc]
  have fraction : fractionPart (n.point ++ (n.tail ++ rest)) = (n.point, n.tail ++ rest) := by
    obtain ⟨htake, hdrop⟩ := Floating.Numeral.takeWhile_digits n.fractionDigits (forall_head?_append n.tail_head stops)
    unfold Floating.Numeral.point
    split
    · next hempty =>
      rw [List.nil_append]
      rcases n.tail_spec with ht | ⟨cs, ht⟩ <;> rw [ht]
      · exact fractionPart_ends hr
      · rfl
    · next hne => simp [fractionPart, htake, hdrop, hne]
  have exponent := exponentPart_numeral hr n
  have digits : n.whole.isEmpty = false := by
    obtain ⟨c, cs, hw, -⟩ := n.canonical
    rw [hw]
    rfl
  -- with neither point nor exponent the text would be read as an integer
  have float : (n.point.isEmpty && n.tail.isEmpty) = false := by
    rw [Bool.and_eq_false_iff, List.isEmpty_eq_false_iff, List.isEmpty_eq_false_iff]
    refine n.float.imp (fun hf => ?_) fun he => ?_
    · rcases n.point_spec with ⟨hf', -⟩ | hp
      · exact absurd hf' hf
      · rw [hp]
        exact List.cons_ne_nil _ _
    · obtain ⟨x, hx⟩ := Option.isSome_iff_exists.mp he
      rw [Floating.Numeral.tail, hx]
      exact List.cons_ne_nil _ _
  have value := n.ofLiteral?_chars .double false
  rw [if_neg (by decide), List.nil_append] at value
  have text : n.whole ++ n.point ++ n.tail = n.chars := List.append_assoc _ _ _
  simp only [numberAt, whole, fraction, exponent, digits, float, text, value, Bool.false_eq_true, if_false]
  rw [Floating.readDecimal_sign negative]

/-! ## Scalars -/

theorem afterWord?_ne {w c : Char} (h : c ≠ w) (word cs : List Char) :
    afterWord? (w :: word) (c :: cs) = none := if_neg h

theorem digit_ne {c d : Char} (h : c.isDigit = true) (hd : d.isDigit = false) : c ≠ d := by
  rintro rfl
  rw [h] at hd
  cases hd

section
variable {c : Char} (h : c.isDigit = true) (cs : List Char)
include h

theorem scalarAt_digit : scalarAt (c :: cs) = numberAt false (c :: cs) := by
  have ne (d : Char) (hd : d.isDigit = false) (word : List Char) : afterWord? (d :: word) (c :: cs) = none :=
    afterWord?_ne (digit_ne h hd) word cs
  have none : (words.findSome? fun x => (afterWord? x.1 (c :: cs)).map (x.2, ·)) = none := by
    simp [words, ne]
  unfold scalarAt
  rw [none]
  dsimp only
  split
  · next heq =>
    cases heq
    exact absurd h (by decide)
  · rfl

theorem scalarAt_negative : scalarAt ('-' :: c :: cs) = numberAt true (c :: cs) := by
  have none : (words.findSome? fun x => (afterWord? x.1 ('-' :: c :: cs)).map (x.2, ·)) = none := by
    simp [words, afterWord?, digit_ne h (show 'I'.isDigit = false by decide)]
  unfold scalarAt
  rw [none]
  rfl

end

section
variable {rest : List Char} (hr : Ends rest)
include hr

theorem scalarAt_int {n : Int} (h : FewDigits n) : scalarAt ((toString n).toList ++ rest) = .ok (.int n, rest) := by
  have first (m : Nat) : ∃ c cs, Nat.toDigits 10 m ++ rest = c :: cs ∧ c.isDigit = true := by
    obtain ⟨c, cs, hc, -⟩ := canonical_toDigits m
    refine ⟨c, cs ++ rest, by rw [hc]; rfl, ?_⟩
    exact Nat.isDigit_of_mem_toDigits (by decide) (by decide) (hc ▸ List.mem_cons_self)
  unfold FewDigits at h
  rw [show toString n = n.repr from rfl, Int.repr_eq_if]
  split
  · next hn =>
    obtain ⟨c, cs, hc, digit⟩ := first n.toNat
    have read := numberAt_toDigits (n := n.toNat) (by omega) false hr
    rw [Nat.toList_repr, hc, scalarAt_digit digit, ← hc, read, if_neg Bool.false_ne_true, Int.toNat_of_nonneg hn]
  · next hn =>
    obtain ⟨c, cs, hc, digit⟩ := first (-n).toNat
    have read := numberAt_toDigits (n := (-n).toNat) (by omega) true hr
    rw [String.toList_append, Nat.toList_repr, List.append_assoc, hc]
    show scalarAt ('-' :: c :: cs) = _
    rw [scalarAt_negative digit, ← hc, read, if_pos rfl]
    congr
    omega

/-- A float is read back, from its word if it is not finite; of the NaNs only the quiet one is. -/
theorem scalarAt_float {x : Double} (hx : x.quiet = x) (hbits : x.bits < 2 ^ 64) :
    scalarAt (x.jsonText.toList ++ rest) = .ok (.float x, rest) := by
  cases hn : x.number with
  | nan =>
    unfold Double.quiet at hx
    rw [if_pos hn] at hx
    subst hx
    rfl
  | infinite s =>
    have infinite : x = ⟨Floating.Format.double.infinity s⟩ :=
      congrArg Double.mk (Floating.Format.infinity_decode hbits hn).symm
    unfold Double.jsonText
    rw [hn, infinite]
    cases s with
    | false => rfl
    | true => rfl
  | finite s m e =>
    have finite : x.isFinite = true := by unfold Double.isFinite; rw [hn]; rfl
    obtain ⟨negative, n, htext, hread⟩ := Floating.Style.text_numeral (s := .json) (by decide) finite hbits
    obtain ⟨c, cs, hw, -⟩ := n.canonical
    have digit := n.wholeDigits c (hw ▸ List.mem_cons_self)
    have read := numberAt_numeral n negative hr
    have front : n.chars ++ rest = c :: (cs ++ (n.point ++ n.tail) ++ rest) := by rw [Floating.Numeral.chars, hw]; rfl
    rw [hread] at read
    rw [Double.jsonText, htext]
    cases negative with
    | false =>
      show scalarAt (n.chars ++ rest) = _
      rw [front, scalarAt_digit digit, ← front, read]
    | true =>
      show scalarAt ('-' :: (n.chars ++ rest)) = _
      rw [front, scalarAt_negative digit, ← front, read]

end

end Json

end GateAsm
