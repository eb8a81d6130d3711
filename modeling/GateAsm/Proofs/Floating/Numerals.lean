import GateAsm.Proofs.Floating.Shortest
import GateAsm.Proofs.Lexing

/-!
# Numbers as they are written

The text of a finite number is a numeral with a point or an exponent, and reading the numeral gives the bits
of the number back. The layouts differ in where the point stands; the value of the numeral is the same.
-/

namespace GateAsm.Floating

/-! ## Digits -/

theorem natOfDigits_append (cs ds : List Char) :
    natOfDigits (cs ++ ds) = natOfDigits cs * 10 ^ ds.length + natOfDigits ds := by
  have grows : ∀ (ds : List Char) (x : Nat), ds.foldl (fun n c => 10 * n + (c.toNat - 48)) x =
      x * 10 ^ ds.length + ds.foldl (fun n c => 10 * n + (c.toNat - 48)) 0 := by
    intro ds
    induction ds with
    | nil => simp
    | cons c ds ih =>
      intro x
      rw [List.foldl_cons, ih, List.foldl_cons, ih (10 * 0 + _), List.length_cons, Nat.pow_succ]
      ring
  rw [natOfDigits, List.foldl_append]
  exact grows ds _

theorem natOfDigits_zeros (n : Nat) : natOfDigits (List.replicate n '0') = 0 := by
  induction n with
  | zero => rfl
  | succ n ih => exact ih

theorem natOfDigits_append_zeros (cs : List Char) (n : Nat) :
    natOfDigits (cs ++ List.replicate n '0') = natOfDigits cs * 10 ^ n := by
  rw [natOfDigits_append, natOfDigits_zeros, List.length_replicate, Nat.add_zero]

theorem natOfDigits_zeros_append (cs : List Char) (n : Nat) :
    natOfDigits (List.replicate n '0' ++ cs) = natOfDigits cs := by
  rw [natOfDigits_append, natOfDigits_zeros, Nat.zero_mul, Nat.zero_add]

theorem toDigits_head {n : Nat} (hn : 0 < n) : ∃ c cs, Nat.toDigits 10 n = c :: cs ∧ c ≠ '0' := by
  cases hd : Nat.toDigits 10 n with
  | nil => exact absurd hd Nat.toDigits_ne_nil
  | cons c cs =>
    refine ⟨c, cs, rfl, ?_⟩
    rintro rfl
    have digits : ∀ c ∈ cs, c.isDigit = true := fun c hc =>
      Nat.isDigit_of_mem_toDigits (by decide) (by decide) (hd ▸ List.mem_cons_of_mem _ hc)
    have value : natOfDigits cs = n := by
      rw [← natOfDigits_toDigits n, hd]
      exact (natOfDigits_zeros_append cs 1).symm
    have small : n < 10 ^ cs.length := value ▸ natOfDigits_lt digits
    cases cs with
    | nil => simp at small; omega
    | cons d cs =>
      have := (Nat.length_toDigits_le_iff (by decide) (Nat.succ_pos _)).mpr small
      rw [hd] at this
      simp at this

theorem exists_zeros (ds : List Char) :
    ∃ z, ds = (ds.reverse.dropWhile (· == '0')).reverse ++ List.replicate z '0' := by
  refine ⟨(ds.reverse.takeWhile (· == '0')).length, ?_⟩
  have zeros : ds.reverse.takeWhile (· == '0') = List.replicate (ds.reverse.takeWhile (· == '0')).length '0' :=
    List.eq_replicate_iff.mpr ⟨rfl, fun c hc => by simpa using List.all_eq_true.mp List.all_takeWhile c hc⟩
  rw [← List.reverse_replicate, ← zeros, ← List.reverse_append, List.takeWhile_append_dropWhile, List.reverse_reverse]

/-! ## Numerals -/

/-- A numeral with a point or an exponent: digits, those behind the point, and the exponent with its sign. No
zero stands in front of other digits. -/
structure Numeral where
  whole : List Char
  fraction : List Char
  exponent : Option (Bool × List Char)
  wholeDigits : ∀ c ∈ whole, c.isDigit = true
  fractionDigits : ∀ c ∈ fraction, c.isDigit = true
  exponentDigits : ∀ x ∈ exponent, x.2 ≠ [] ∧ ∀ c ∈ x.2, c.isDigit = true
  canonical : ∃ c cs, whole = c :: cs ∧ (c = '0' → cs = [])
  float : fraction ≠ [] ∨ exponent.isSome = true

namespace Numeral

variable (n : Numeral)

def tail : List Char :=
  match n.exponent with
  | none => []
  | some (negative, ds) => 'e' :: (if negative then '-' else '+') :: ds

def point : List Char := if n.fraction.isEmpty then [] else '.' :: n.fraction

def chars : List Char := n.whole ++ (n.point ++ n.tail)

def digits : Nat := natOfDigits (n.whole ++ n.fraction)

def scale : Int :=
  (match n.exponent with
  | none => 0
  | some (negative, ds) => Json.signed negative ds) - n.fraction.length

def value : Rat := n.digits * 10 ^ n.scale

theorem takeWhile_digits {ds rest : List Char} (hds : ∀ c ∈ ds, c.isDigit = true)
    (hrest : ∀ c ∈ rest.head?, c.isDigit = false) :
    (ds ++ rest).takeWhile Char.isDigit = ds ∧ (ds ++ rest).dropWhile Char.isDigit = rest := by
  rw [List.takeWhile_append_of_pos hds, List.dropWhile_append_of_pos hds]
  cases rest with
  | nil => simp
  | cons c rest =>
    have := hrest c rfl
    rw [List.takeWhile_cons_of_neg (by simp [this]), List.dropWhile_cons_of_neg (by simp [this]), List.append_nil]
    exact ⟨rfl, rfl⟩

theorem point_spec : n.fraction = [] ∧ n.point = [] ∨ n.point = '.' :: n.fraction := by
  unfold point
  split
  · next h => exact .inl ⟨List.isEmpty_iff.mp h, rfl⟩
  · exact .inr rfl

theorem tail_spec : n.tail = [] ∨ ∃ cs, n.tail = 'e' :: cs := by
  unfold tail
  cases n.exponent with
  | none => exact .inl rfl
  | some x => exact .inr ⟨_, rfl⟩

theorem tail_head : ∀ c ∈ n.tail.head?, c.isDigit = false := by
  rcases n.tail_spec with h | ⟨cs, h⟩ <;> rw [h]
  · exact nofun
  · intro c hc; cases hc; rfl

theorem rest_head : ∀ c ∈ (n.point ++ n.tail).head?, c.isDigit = false := by
  rcases n.point_spec with ⟨-, h⟩ | h <;> rw [h]
  · exact n.tail_head
  · intro c hc; cases hc; rfl

theorem splitSign_chars : splitSign n.chars = (false, n.chars) := by
  obtain ⟨c, cs, hw, -⟩ := n.canonical
  have digit := n.wholeDigits c (hw ▸ List.mem_cons_self)
  unfold chars
  rw [hw]
  unfold splitSign
  split
  · next h => cases h; exact absurd digit (by decide)
  · next h => cases h; exact absurd digit (by decide)
  · rfl

theorem exponentPart?_tail : exponentPart? n.tail = some (n.scale + n.fraction.length) := by
  unfold tail scale
  cases hexp : n.exponent with
  | none => simp [exponentPart?]
  | some x =>
    obtain ⟨negative, ds⟩ := x
    obtain ⟨hne, hds⟩ := n.exponentDigits _ hexp
    have all : ds.all Char.isDigit = true := List.all_eq_true.mpr hds
    cases negative <;> simp [exponentPart?, splitSign, hne, all, Json.signed]

/-- The numeral is read as its value. -/
theorem ofLiteral?_chars (f : Format) (negative : Bool) :
    ofLiteral? f ((if negative then ['-'] else []) ++ n.chars) = some (readDecimal f negative n.digits n.scale) := by
  have sign : splitSign ((if negative then ['-'] else []) ++ n.chars) = (negative, n.chars) := by
    cases negative
    · exact n.splitSign_chars
    · rfl
  obtain ⟨htake, hdrop⟩ := takeWhile_digits n.wholeDigits n.rest_head
  obtain ⟨htake', hdrop'⟩ := takeWhile_digits n.fractionDigits n.tail_head
  have nonempty : n.whole.isEmpty = false := by
    obtain ⟨c, cs, hw, -⟩ := n.canonical
    rw [hw]; rfl
  have exponent := n.exponentPart?_tail
  unfold ofLiteral?
  rw [sign]
  dsimp only
  rw [show n.chars = n.whole ++ (n.point ++ n.tail) from rfl, htake, hdrop]
  rcases n.point_spec with ⟨hf, hp⟩ | hp
  · rw [hp, List.nil_append, digits, hf]
    rw [hf, List.length_nil, Int.natCast_zero, Int.add_zero] at exponent
    rcases n.tail_spec with ht | ⟨cs, ht⟩ <;> rw [ht] at exponent ⊢ <;> simp [nonempty, exponent]
  · rw [hp, List.cons_append]
    simp only
    rw [htake', hdrop', nonempty, Bool.false_and, if_neg (by decide), exponent, Option.map_some, Int.add_sub_cancel]
    rfl

end Numeral

/-! ## Layouts -/

namespace Style

variable {s : Style} {ds : List Char} {a : Int}

def exponentDigits (s : Style) (a : Int) : List Char :=
  List.replicate (s.exponentWidth - (toString a.natAbs).length) '0' ++ Nat.toDigits 10 a.natAbs

theorem exponentDigits_spec (s : Style) (a : Int) :
    s.exponentDigits a ≠ [] ∧ (∀ c ∈ s.exponentDigits a, c.isDigit = true) ∧
      Json.signed (decide (a < 0)) (s.exponentDigits a) = a := by
  refine ⟨?_, fun c hc => ?_, ?_⟩
  · exact List.append_ne_nil_of_right_ne_nil _ Nat.toDigits_ne_nil
  · rcases List.mem_append.mp hc with hc | hc
    · rw [List.eq_of_mem_replicate hc]; rfl
    · exact Nat.isDigit_of_mem_toDigits (by decide) (by decide) hc
  · rw [Json.signed, exponentDigits, natOfDigits_zeros_append, natOfDigits_toDigits]
    by_cases h : a < 0 <;> simp only [h, decide_true, decide_false, if_true, Bool.false_eq_true, if_false] <;> omega

theorem toList_exponentText (s : Style) (a : Int) :
    (s.exponentText a).toList = 'e' :: (if a < 0 then '-' else '+') :: s.exponentDigits a := by
  unfold exponentText exponentDigits
  dsimp only
  rw [String.toList_append, String.toList_append, String.toList_ofList, Nat.toString_eq_repr, Nat.toList_repr]
  split <;> rfl

/-- The numeral has the value of digits of which the first has the weight `10 ^ a`, and is of moderate size. -/
structure LaysOut (n : Numeral) (ds : List Char) (a : Int) : Prop where
  value : n.value = natOfDigits ds * 10 ^ (a + 1 - ds.length)
  digits : n.digits < 10 ^ (ds.length + 17)
  least : -(ds.length : Int) - a.natAbs ≤ n.scale
  most : n.scale ≤ max a 0

theorem LaysOut.of_same {n : Numeral} (hds : ∀ c ∈ ds, c.isDigit = true) (hne : ds ≠ [])
    (hdigits : n.digits = natOfDigits ds) (hscale : n.scale = a + 1 - ds.length) : LaysOut n ds a := by
  have := List.length_pos_iff.mpr hne
  refine ⟨by rw [Numeral.value, hdigits, hscale], ?_, by omega, by omega⟩
  rw [hdigits]
  exact (natOfDigits_lt hds).trans_le (Nat.pow_le_pow_right (by decide) (Nat.le_add_right _ _))

theorem layout_below (hds : ∀ c ∈ ds, c.isDigit = true) (hne : ds ≠ []) (ha : a < 0) :
    ∃ n : Numeral, ("0." ++ String.ofList (List.replicate ((-a).toNat - 1) '0' ++ ds)).toList = n.chars ∧
    LaysOut n ds a := by
  let n : Numeral := {
    whole := ['0']
    fraction := List.replicate ((-a).toNat - 1) '0' ++ ds
    exponent := none
    wholeDigits := List.forall_mem_singleton.mpr rfl
    fractionDigits := fun c hc => by
      rcases List.mem_append.mp hc with hc | hc
      · rw [List.eq_of_mem_replicate hc]; rfl
      · exact hds c hc
    exponentDigits := nofun
    canonical := ⟨'0', [], rfl, fun _ => rfl⟩
    float := .inl (List.append_ne_nil_of_right_ne_nil _ hne) }
  refine ⟨n, ?_, .of_same hds hne ?_ ?_⟩
  · have : n.point = '.' :: n.fraction :=
      n.point_spec.resolve_left fun h => List.append_ne_nil_of_right_ne_nil _ hne h.1
    rw [Numeral.chars, this, show n.tail = [] from rfl, List.append_nil]
    simp only [String.toList_append, String.toList_ofList]
    rfl
  · exact (natOfDigits_zeros_append _ 1).trans (natOfDigits_zeros_append _ _)
  · have : n.scale = -(((-a).toNat - 1 + ds.length : Nat) : Int) := by
      show 0 - ((List.replicate ((-a).toNat - 1) '0' ++ ds).length : Int) = _
      rw [List.length_append, List.length_replicate, Int.zero_sub]
    rw [this]
    omega

theorem layout_across (hds : ∀ c ∈ ds, c.isDigit = true) {c : Char} {cs : List Char} (hc : ds = c :: cs)
    (hzero : c ≠ '0') (ha : 0 ≤ a) (ha' : a ≤ 15) :
    ∃ n : Numeral, (String.ofList (ds.take (a.toNat + 1) ++ List.replicate (a.toNat + 1 - ds.length) '0') ++ "." ++
      (if (ds.drop (a.toNat + 1)).isEmpty then "0" else String.ofList (ds.drop (a.toNat + 1)))).toList = n.chars ∧
      LaysOut n ds a := by
  have front : ∀ d ∈ ds.take (a.toNat + 1) ++ List.replicate (a.toNat + 1 - ds.length) '0', d.isDigit = true := by
    intro d hd
    rcases List.mem_append.mp hd with hd | hd
    · exact hds d (List.mem_of_mem_take hd)
    · rw [List.eq_of_mem_replicate hd]; rfl
  have canonical : ∃ d ds', ds.take (a.toNat + 1) ++ List.replicate (a.toNat + 1 - ds.length) '0' = d :: ds' ∧
      (d = '0' → ds' = []) := ⟨c, _, by rw [hc, List.take_succ_cons]; rfl, fun h => absurd h hzero⟩
  -- the digits end in front of the point, and zeros fill up to it, or some stand behind it
  by_cases hback : ds.length ≤ a.toNat + 1
  · let n : Numeral := ⟨_, ['0'], none, front, List.forall_mem_singleton.mpr rfl, nofun, canonical, .inl nofun⟩
    have whole : n.whole = ds ++ List.replicate (a.toNat + 1 - ds.length) '0' := by
      show ds.take _ ++ _ = _
      rw [List.take_of_length_le hback]
    have digits : n.digits = natOfDigits ds * 10 ^ (a.toNat + 2 - ds.length) := by
      rw [Numeral.digits, whole, show n.fraction = List.replicate 1 '0' from rfl, natOfDigits_append_zeros,
        natOfDigits_append_zeros, Nat.mul_assoc, ← Nat.pow_add]
      congr 2; omega
    have scale : n.scale = -1 := rfl
    refine ⟨n, ?_, ?_, ?_, ?_, ?_⟩
    · rw [List.drop_eq_nil_of_le hback]
      simp [Numeral.chars, Numeral.point, Numeral.tail, n, String.toList_append]
    · rw [Numeral.value, digits, scale, Nat.cast_mul, Nat.cast_pow, Nat.cast_ofNat, mul_assoc, ← zpow_natCast,
        ← zpow_add₀ (by norm_num)]
      congr 2; omega
    · rw [digits]
      calc natOfDigits ds * 10 ^ (a.toNat + 2 - ds.length)
          < 10 ^ ds.length * 10 ^ (a.toNat + 2 - ds.length) :=
            Nat.mul_lt_mul_of_pos_right (natOfDigits_lt hds) (by positivity)
        _ ≤ 10 ^ (ds.length + 17) := by
          rw [← Nat.pow_add]
          exact Nat.pow_le_pow_right (by decide) (by omega)
    · have := List.length_pos_iff.mpr (hc ▸ List.cons_ne_nil c cs)
      omega
    · omega
  · let n : Numeral := ⟨_, ds.drop (a.toNat + 1), none, front, fun d hd => hds d (List.mem_of_mem_drop hd),
      nofun, canonical, .inl (by simpa using hback)⟩
    have hne : (ds.drop (a.toNat + 1)) ≠ [] := by simpa using hback
    have all : n.whole ++ n.fraction = ds := by
      show ds.take _ ++ List.replicate (a.toNat + 1 - ds.length) '0' ++ ds.drop _ = ds
      rw [show a.toNat + 1 - ds.length = 0 by omega, List.replicate_zero, List.append_nil, List.take_append_drop]
    refine ⟨n, ?_, .of_same hds (hc ▸ List.cons_ne_nil c cs) ?_ ?_⟩
    · have : n.point = '.' :: n.fraction := n.point_spec.resolve_left fun h => hne h.1
      rw [Numeral.chars, this, show n.tail = [] from rfl, List.append_nil, if_neg (by simpa using hback)]
      simp only [String.toList_append, String.toList_ofList]
      simp [n]
    · rw [Numeral.digits, all]
    · have : n.scale = -((ds.drop (a.toNat + 1)).length : Int) := Int.zero_sub _
      rw [this, List.length_drop]
      omega

theorem layout_exponent (s : Style) (hds : ∀ c ∈ ds, c.isDigit = true) (hne : ds ≠ []) :
    ∃ n : Numeral, (String.ofList (ds.take 1) ++ (if ds.length ≤ 1 then "" else "." ++ String.ofList (ds.drop 1))
      ++ s.exponentText a).toList = n.chars ∧ LaysOut n ds a := by
  obtain ⟨c, cs, rfl⟩ := List.exists_cons_of_ne_nil hne
  obtain ⟨hexp, hdigits, hsigned⟩ := s.exponentDigits_spec a
  let n : Numeral := {
    whole := [c]
    fraction := cs
    exponent := some (decide (a < 0), s.exponentDigits a)
    wholeDigits := fun d hd => hds d (List.mem_singleton.mp hd ▸ List.mem_cons_self)
    fractionDigits := fun d hd => hds d (List.mem_cons_of_mem _ hd)
    exponentDigits := by rintro x ⟨⟩; exact ⟨hexp, hdigits⟩
    canonical := ⟨c, [], rfl, fun _ => rfl⟩
    float := .inr rfl }
  refine ⟨n, ?_, .of_same hds hne rfl ?_⟩
  · have tail : n.tail = (s.exponentText a).toList := by
      rw [toList_exponentText]
      by_cases h : a < 0 <;> simp [n, Numeral.tail, h]
    rw [Numeral.chars, tail, Numeral.point]
    cases cs with
    | nil => simp [n, String.toList_append]
    | cons d cs => simp [n, String.toList_append]
  · show Json.signed (decide (a < 0)) (s.exponentDigits a) - cs.length = _
    rw [hsigned, List.length_cons]
    omega

/-- Digits are laid out as a numeral of their value. -/
theorem layout_numeral (hds : ∀ c ∈ ds, c.isDigit = true) (hhead : ∃ c cs, ds = c :: cs ∧ c ≠ '0')
    (hs : s.highest ≤ 15) : ∃ n : Numeral, (s.layout ds a).toList = n.chars ∧ LaysOut n ds a := by
  obtain ⟨c, cs, hc, hzero⟩ := hhead
  have hne : ds ≠ [] := by rw [hc]; exact List.cons_ne_nil _ _
  unfold layout
  split
  · next hrange =>
    obtain ⟨-, hhigh⟩ := Bool.and_eq_true_iff.mp hrange
    split
    · next hneg => exact layout_below hds hne hneg
    · next hneg => exact layout_across hds hc hzero (Int.not_lt.mp hneg) ((of_decide_eq_true hhigh).trans hs)
  · exact layout_exponent s hds hne

theorem decimalText_numeral {d : Decimal} (hd : 0 < d.digits) (hs : s.highest ≤ 15) :
    ∃ n : Numeral, (s.decimalText d).toList = n.chars ∧ n.value = d.value ∧
      n.digits < 10 ^ ((Nat.toDigits 10 d.digits).length + 17) ∧
      -((Nat.toDigits 10 d.digits).length : Int) * 2 - d.exponent.natAbs ≤ n.scale ∧
      n.scale ≤ max (d.exponent + (Nat.toDigits 10 d.digits).length) 0 := by
  obtain ⟨z, hz⟩ := exists_zeros (Nat.toDigits 10 d.digits)
  obtain ⟨c, cs, hc, hzero⟩ := toDigits_head hd
  have whole := natOfDigits_toDigits d.digits
  unfold decimalText
  rw [Nat.toString_eq_repr, Nat.toList_repr]
  dsimp only
  have digits : ∀ c ∈ Nat.toDigits 10 d.digits, c.isDigit = true := fun _ =>
    Nat.isDigit_of_mem_toDigits (by decide) (by decide)
  generalize ((Nat.toDigits 10 d.digits).reverse.dropWhile (· == '0')).reverse = kept at hz ⊢
  generalize Nat.toDigits 10 d.digits = ds at *
  subst hz
  rw [natOfDigits_append_zeros] at whole
  have head : ∃ c cs, kept = c :: cs ∧ c ≠ '0' := by
    cases kept with
    | nil =>
      rw [natOfDigits, List.foldl_nil, Nat.zero_mul] at whole
      omega
    | cons d kept => cases hc; exact ⟨_, _, rfl, hzero⟩
  obtain ⟨n, hchars, value, small, least, most⟩ :=
    layout_numeral (a := d.exponent + (kept ++ List.replicate z '0').length - 1)
      (fun c hc => digits c (List.mem_append_left _ hc)) head hs
  have length : (kept ++ List.replicate z '0').length = kept.length + z := by simp
  have pos : 0 < kept.length := by obtain ⟨c, cs, rfl, -⟩ := head; exact Nat.succ_pos _
  rw [length] at value least most hchars ⊢
  refine ⟨n, hchars, ?_, small.trans_le (Nat.pow_le_pow_right (by decide) (by omega)), by omega, by omega⟩
  rw [value, Decimal.value, ← whole, Nat.cast_mul, Nat.cast_pow, Nat.cast_ofNat, mul_assoc, ← zpow_natCast,
    ← zpow_add₀ (by norm_num)]
  congr 2
  omega

end Style

/-! ## Reading back -/

theorem readDecimal_eq (f : Format) (negative : Bool) {digits : Nat} {x : Int} (hd : 0 < digits)
    (hd' : digits < 10 ^ 38) (hx : -400 ≤ x ∧ x < 361) :
    readDecimal f negative digits x = f.round negative (digits * 10 ^ x.toNat) (10 ^ (-x).toNat) := by
  have size : digits.log2 < 127 := (Nat.log2_lt hd.ne').mpr (hd'.trans (by decide))
  unfold readDecimal
  rw [if_neg hd.ne', if_neg (by omega), if_neg (by omega)]

/-- A decimal in the interval of a number is read as its bits. -/
theorem readDecimal_of_contains {m : Nat} {e : Int} (h : Format.double.Holds m e) (hm : 0 < m)
    (negative : Bool) {digits : Nat} {x : Int} (hd : 0 < digits) (hd' : digits < 10 ^ 38) (hx : -400 ≤ x ∧ x < 361)
    (hq : (roundingInterval .double m e).Contains (digits * 10 ^ x)) :
    readDecimal .double negative digits x = Format.double.encode negative m e := by
  rw [readDecimal_eq _ _ hd hd' hx]
  refine Format.round_eq h hm (by positivity) ?_ negative
  rw [Nat.cast_mul, Nat.cast_pow, Nat.cast_pow, Nat.cast_ofNat, mul_div_assoc, pow_toNat_div]
  exact hq

def Numeral.zero : Numeral := ⟨['0'], ['0'], none, List.forall_mem_singleton.mpr rfl,
    List.forall_mem_singleton.mpr rfl, nofun, ⟨'0', [], rfl, fun _ => rfl⟩, .inl nofun⟩

/-- **The text of a finite number reads back.** It is a numeral, behind a minus sign if the sign bit is set, and
its value is rounded to the bits of the number. -/
theorem Style.text_numeral {s : Style} (hs : s.highest ≤ 15) {x : Double} (hfinite : x.isFinite = true)
    (hbits : x.bits < 2 ^ 64) : ∃ (negative : Bool) (n : Numeral),
      (s.text .double x.number).toList = (if negative then ['-'] else []) ++ n.chars ∧
        readDecimal .double negative n.digits n.scale = x.bits := by
  unfold Double.isFinite at hfinite
  cases hnumber : x.number with
  | nan => rw [hnumber] at hfinite; cases hfinite
  | infinite negative => rw [hnumber] at hfinite; cases hfinite
  | finite negative m e =>
    obtain ⟨encoded, held⟩ := Format.encode_decode (by decide +kernel)
      (Nat.lt_of_lt_of_le hbits (by decide +kernel)) hnumber
    refine ⟨negative, ?_⟩
    have sign (t : String) : ((if negative then "-" else "") ++ t).toList =
        (if negative then ['-'] else []) ++ t.toList := by
      cases negative <;> simp [String.toList_append]
    rw [Style.text, sign, ← encoded]
    by_cases hm : m = 0
    · subst hm
      obtain rfl : e = Format.double.minExponent := held.normal.resolve_left (by decide)
      refine ⟨.zero, by rw [if_pos rfl]; rfl, ?_⟩
      cases negative <;> decide +kernel
    · rw [if_neg hm]
      have hm : 0 < m := Nat.pos_of_ne_zero hm
      obtain ⟨contains_, pos, small, least, most⟩ := shortest_spec held hm
      obtain ⟨n, hchars, value, digits, low, high⟩ := Style.decimalText_numeral pos hs
      have len : (Nat.toDigits 10 (shortest .double m e).digits).length ≤ 21 :=
        (Nat.length_toDigits_le_iff (by decide) (by decide)).mpr small
      refine ⟨n, by rw [hchars], readDecimal_of_contains held hm negative ?_ ?_ ⟨by omega, by omega⟩ ?_⟩
      · refine Nat.pos_of_ne_zero fun h => ?_
        rw [Numeral.value, h, Nat.cast_zero, zero_mul, Decimal.value] at value
        have : (0 : Rat) < (shortest .double m e).digits * 10 ^ (shortest .double m e).exponent := by positivity
        linarith
      · exact digits.trans_le (Nat.pow_le_pow_right (by decide) (by omega))
      · rw [← Numeral.value, value]
        exact contains_

end GateAsm.Floating
