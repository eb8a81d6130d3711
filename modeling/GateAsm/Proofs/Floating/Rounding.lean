import GateAsm.Floating.Double
import Mathlib.Algebra.Order.Field.Power
import Mathlib.Tactic.FieldSimp
import Mathlib.Tactic.Linarith
import Mathlib.Tactic.Positivity
import Mathlib.Tactic.Ring

/-!
# Rounding

A number has an interval of quotients around it, and `Format.round` gives its bits for each of them. Quotients
and powers are rational numbers here, so that bounds need no common denominator. Encoding is the inverse of
decoding on the bits of numbers that are finite.
-/

namespace GateAsm.Floating

/-! ## Powers -/

theorem pow_toNat_div (b : Rat) (a : Int) : b ^ a.toNat / b ^ (-a).toNat = b ^ a := by
  rcases le_total 0 a with ha | ha
  · obtain ⟨n, rfl⟩ := Int.eq_ofNat_of_zero_le ha
    simp
  · obtain ⟨n, hn⟩ := Int.eq_ofNat_of_zero_le (neg_nonneg.mpr ha)
    obtain rfl : a = -(n : Int) := by omega
    simp

theorem scaled_div (num den : Nat) {b : Nat} (hb : b ≠ 0) (a : Int) :
    ((num * b ^ (-a).toNat : Nat) : Rat) / (den * b ^ a.toNat : Nat) = num / den / (b : Rat) ^ a := by
  have hb' : (b : Rat) ≠ 0 := by exact_mod_cast hb
  rw [← pow_toNat_div b a]
  push_cast
  field_simp

theorem floorLog2_spec {num den : Nat} (hnum : 0 < num) (hden : 0 < den) :
    (2 : Rat) ^ Format.floorLog2 num den ≤ num / den ∧ (num / den : Rat) < 2 ^ (Format.floorLog2 num den + 1) := by
  have hd : (0 : Rat) < den := by exact_mod_cast hden
  have below (n : Nat) (hn : 0 < n) : (2 : Rat) ^ (n.log2 : Int) ≤ n := by
    rw [zpow_natCast]; exact_mod_cast Nat.log2_self_le hn.ne'
  have above (n : Nat) : (n : Rat) < 2 ^ (n.log2 + 1 : Int) := by
    rw [show (n.log2 + 1 : Int) = ((n.log2 + 1 : Nat) : Int) by simp, zpow_natCast]
    exact_mod_cast Nat.lt_log2_self
  have two : (2 : Rat) ≠ 0 := by norm_num
  -- the difference of the two logarithms is the exponent or one more than it
  have least : (2 : Rat) ^ ((num.log2 : Int) - den.log2 - 1) ≤ num / den := by
    rw [le_div_iff₀ hd]
    have h := mul_le_mul_of_nonneg_left (above den).le
      (zpow_nonneg (by norm_num : (0 : Rat) ≤ 2) ((num.log2 : Int) - den.log2 - 1))
    rw [← zpow_add₀ two] at h
    refine h.trans ((le_of_eq ?_).trans (below num hnum))
    congr 1; omega
  have most : (num / den : Rat) < 2 ^ ((num.log2 : Int) - den.log2 + 1) := by
    rw [div_lt_iff₀ hd]
    have h := mul_le_mul_of_nonneg_left (below den hden)
      (zpow_nonneg (by norm_num : (0 : Rat) ≤ 2) ((num.log2 : Int) - den.log2 + 1))
    rw [← zpow_add₀ two] at h
    refine (above num).trans_le (le_trans (le_of_eq ?_) h)
    congr 1; omega
  unfold Format.floorLog2
  generalize (num.log2 : Int) - den.log2 = a at least most ⊢
  have scaled := scaled_div num den two_ne_zero a
  rw [Nat.cast_ofNat] at scaled
  have hden' : (0 : Rat) < (den * 2 ^ a.toNat : Nat) := by exact_mod_cast Nat.mul_pos hden (by positivity)
  have hpow : (0 : Rat) < (2 : Rat) ^ a := by positivity
  have test : num * 2 ^ (-a).toNat < den * 2 ^ a.toNat ↔ (num / den : Rat) < 2 ^ a := by
    rw [← div_lt_one hpow, ← scaled, div_lt_one hden', Nat.cast_lt]
  dsimp only
  split
  · next h => exact ⟨least, by rw [sub_add_cancel]; exact test.mp h⟩
  · next h => exact ⟨not_lt.mp (mt test.mpr h), most⟩

theorem roundDiv_eq {num den m : Nat} (hden : 0 < den) (hlow : (m - 1 / 2 : Rat) ≤ num / den)
    (hhigh : (num / den : Rat) ≤ m + 1 / 2)
    (hodd : m % 2 ≠ 0 → (m - 1 / 2 : Rat) < num / den ∧ (num / den : Rat) < m + 1 / 2) :
    Format.roundDiv num den = m := by
  have hd : (0 : Rat) < den := by exact_mod_cast hden
  have split : den * (num / den) + num % den = num := Nat.div_add_mod num den
  have rest : num % den < den := Nat.mod_lt _ hden
  rw [le_div_iff₀ hd] at hlow
  rw [div_le_iff₀ hd] at hhigh
  rw [lt_div_iff₀ hd, div_lt_iff₀ hd] at hodd
  have low : 2 * m * den ≤ 2 * num + den := by
    have : (2 * m * den : Rat) ≤ 2 * num + den := by linarith
    exact_mod_cast this
  have high : 2 * num ≤ (2 * m + 1) * den := by
    have : (2 * num : Rat) ≤ (2 * m + 1) * den := by linarith
    exact_mod_cast this
  have odd : m % 2 ≠ 0 → 2 * m * den < 2 * num + den ∧ 2 * num < (2 * m + 1) * den := by
    intro h
    obtain ⟨h1, h2⟩ := hodd h
    have l1 : (2 * m * den : Rat) < 2 * num + den := by linarith
    have l2 : (2 * num : Rat) < (2 * m + 1) * den := by linarith
    exact ⟨by exact_mod_cast l1, by exact_mod_cast l2⟩
  unfold Format.roundDiv
  generalize num / den = q at split ⊢
  generalize num % den = r at split rest ⊢
  subst split
  -- half a unit away at most, a number is the quotient rounded down or the next one
  have hq : m = q ∨ m = q + 1 := by
    have h1 : m < q + 2 := by
      by_contra h
      have := Nat.mul_le_mul_right den (show 2 * (q + 2) ≤ 2 * m by omega)
      nlinarith
    have h2 : q < m + 1 := by
      by_contra h
      have := Nat.mul_le_mul_right den (show 2 * (m + 1) ≤ 2 * q by omega)
      nlinarith
    omega
  rcases hq with rfl | rfl
  · have top : 2 * r ≤ den := by nlinarith
    have tie : 2 * r = den → m % 2 = 0 := by
      intro h
      by_contra hm
      have := (odd hm).2
      nlinarith
    dsimp only
    split
    · rfl
    · rw [if_neg (by omega), tie (by omega), Nat.add_zero]
  · have top : den ≤ 2 * r := by nlinarith
    have tie : 2 * r = den → q % 2 = 1 := by
      intro h
      by_contra hm
      have := (odd (by omega)).1
      nlinarith
    dsimp only
    rw [if_neg (by omega)]
    split
    · rfl
    · rw [tie (by omega)]

theorem roundDiv_scaled {num den n : Nat} {e : Int} (hden : 0 < den) (hlow : (n - 1 / 2 : Rat) * 2 ^ e ≤ num / den)
    (hhigh : (num / den : Rat) ≤ (n + 1 / 2) * 2 ^ e)
    (hodd : n % 2 ≠ 0 → (n - 1 / 2 : Rat) * 2 ^ e < num / den ∧ (num / den : Rat) < (n + 1 / 2) * 2 ^ e) :
    Format.roundDiv (num * 2 ^ (-e).toNat) (den * 2 ^ e.toNat) = n := by
  have hunit : (0 : Rat) < 2 ^ e := by positivity
  have scaled := scaled_div num den two_ne_zero e
  rw [Nat.cast_ofNat] at scaled
  refine roundDiv_eq (Nat.mul_pos hden (by positivity)) ?_ ?_ fun h => ?_
  · rwa [scaled, le_div_iff₀ hunit]
  · rwa [scaled, div_le_iff₀ hunit]
  · rw [scaled, lt_div_iff₀ hunit, div_lt_iff₀ hunit]
    exact hodd h

/-! ## Intervals -/

structure Format.Holds (f : Format) (m : Nat) (e : Int) : Prop where
  lt : m < 2 ^ (f.mantissaBits + 1)
  least : f.minExponent ≤ e
  normal : 2 ^ f.mantissaBits ≤ m ∨ e = f.minExponent
  finite : e - f.minExponent + 1 < f.reserved

/-- The number lies in the interval, strictly if the ends do not belong to it. -/
structure RoundingInterval.Contains (i : RoundingInterval) (q : Rat) : Prop where
  low : (i.low : Rat) / i.scale ≤ q
  high : q ≤ (i.high : Rat) / i.scale
  inner : i.closed = false → (i.low : Rat) / i.scale < q ∧ q < (i.high : Rat) / i.scale

section
variable {f : Format} {m : Nat} {e : Int}

theorem roundingInterval_high :
    ((roundingInterval f m e).high : Rat) / (roundingInterval f m e).scale = (m + 1 / 2) * 2 ^ e := by
  rw [← pow_toNat_div 2 e]
  simp only [roundingInterval]
  push_cast
  field_simp
  ring

theorem roundingInterval_value :
    ((roundingInterval f m e).value : Rat) / (roundingInterval f m e).scale = m * 2 ^ e := by
  rw [← pow_toNat_div 2 e]
  simp only [roundingInterval]
  push_cast
  field_simp

theorem roundingInterval_low (hm : 0 < m) :
    ((roundingInterval f m e).low : Rat) / (roundingInterval f m e).scale =
      (m - if m = 2 ^ f.mantissaBits ∧ f.minExponent < e then 1 / 4 else 1 / 2) * 2 ^ e := by
  rw [← pow_toNat_div 2 e]
  simp only [roundingInterval, Bool.and_eq_true, decide_eq_true_eq]
  split
  · rw [Nat.cast_mul, Nat.cast_sub (by omega)]
    push_cast
    field_simp
  · rw [Nat.cast_mul, Nat.cast_sub (by omega)]
    push_cast
    field_simp
    ring

theorem RoundingInterval.Contains.half {q : Rat} (h : (roundingInterval f m e).Contains q) (hm : 0 < m) :
    ((m : Rat) - 1 / 2) * 2 ^ e ≤ q := by
  refine le_trans (mul_le_mul_of_nonneg_right ?_ (by positivity)) (roundingInterval_low hm ▸ h.low)
  split <;> linarith

theorem RoundingInterval.Contains.half_lt {q : Rat} (h : (roundingInterval f m e).Contains q) (hm : 0 < m)
    (hodd : m % 2 ≠ 0) : ((m : Rat) - 1 / 2) * 2 ^ e < q ∧ q < (m + 1 / 2) * 2 ^ e := by
  obtain ⟨hlow, hhigh⟩ := h.inner (decide_eq_false hodd)
  rw [roundingInterval_low hm] at hlow
  refine ⟨lt_of_le_of_lt (mul_le_mul_of_nonneg_right ?_ (by positivity)) hlow, roundingInterval_high ▸ hhigh⟩
  split <;> linarith

theorem RoundingInterval.Contains.quarter {q : Rat} (h : (roundingInterval f m e).Contains q)
    (hm : m = 2 ^ f.mantissaBits) (he : f.minExponent < e) : (2 ^ f.mantissaBits - 1 / 4 : Rat) * 2 ^ e ≤ q := by
  have low := h.low
  rw [roundingInterval_low (hm ▸ Nat.two_pow_pos _), if_pos ⟨hm, he⟩, hm] at low
  exact_mod_cast low

theorem two_zpow_eq (e : Int) : (2 : Rat) ^ e = 2 * 2 ^ (e - 1) := by
  rw [zpow_sub_one₀ two_ne_zero]; ring

/-- A quotient that is close below a power of two has the exponent below. -/
theorem exponent_below {q : Rat} {p : Nat} {a : Int} (quarter : (2 ^ p - 1 / 4 : Rat) * 2 ^ e ≤ q)
    (hlow : q < 2 ^ ((p : Int) + e)) (below : 2 ^ a ≤ q) (above : q < 2 ^ (a + 1)) : a - p = e - 1 := by
  have half : (0 : Rat) < 2 ^ (e - 1) := by positivity
  have one : (1 : Rat) ≤ 2 ^ p := one_le_pow₀ one_le_two
  have reached : (2 : Rat) ^ ((p : Int) + (e - 1)) ≤ q := by
    refine le_trans ?_ quarter
    rw [zpow_add₀ two_ne_zero, zpow_natCast, two_zpow_eq e]
    nlinarith
  have exponent {x y : Int} (h : (2 : Rat) ^ x < 2 ^ y) : x < y := (zpow_lt_zpow_iff_right₀ one_lt_two).mp h
  have := exponent (below.trans_lt hlow)
  have := exponent (reached.trans_lt above)
  omega

theorem roundDiv_below {num den p : Nat} (hden : 0 < den) (quarter : (2 ^ p - 1 / 4 : Rat) * 2 ^ e ≤ num / den)
    (hlow : (num / den : Rat) < 2 ^ ((p : Int) + e)) :
    Format.roundDiv (num * 2 ^ (-(e - 1)).toNat) (den * 2 ^ (e - 1).toNat) = 2 ^ (p + 1) := by
  have half : (0 : Rat) < 2 ^ (e - 1) := by positivity
  refine roundDiv_scaled hden ?_ ?_ fun hodd => absurd (by simp [Nat.pow_succ]) hodd
  · refine le_trans (le_of_eq ?_) quarter
    rw [two_zpow_eq e]; push_cast; ring
  · refine hlow.le.trans ?_
    rw [zpow_add₀ two_ne_zero, zpow_natCast, two_zpow_eq e, Nat.cast_pow, Nat.cast_ofNat, pow_succ]
    linarith

theorem Format.Holds.eq_two_pow {q : Rat} (h : f.Holds m e) (hmin : e ≠ f.minExponent)
    (half : ((m : Rat) - 1 / 2) * 2 ^ e ≤ q) (hlow : q < 2 ^ ((f.mantissaBits : Int) + e)) :
    m = 2 ^ f.mantissaBits := by
  have hunit : (0 : Rat) < 2 ^ e := by positivity
  refine le_antisymm (Nat.le_of_not_lt fun hlt => ?_) (h.normal.resolve_right hmin)
  have : (2 : Rat) ^ f.mantissaBits + 1 ≤ m := by exact_mod_cast hlt
  rw [zpow_add₀ two_ne_zero, zpow_natCast] at hlow
  have := mul_le_mul_of_nonneg_right (show (2 : Rat) ^ f.mantissaBits ≤ m - 1 / 2 by linarith) hunit.le
  linarith

/-- **Rounding gives a number back from its interval.** -/
theorem Format.round_eq (h : f.Holds m e) (hm : 0 < m) {num den : Nat} (hden : 0 < den)
    (hq : (roundingInterval f m e).Contains (num / den)) (s : Bool) : f.round s num den = f.encode s m e := by
  have hunit : (0 : Rat) < 2 ^ e := by positivity
  have high := roundingInterval_high ▸ hq.high
  have half := hq.half hm
  have hm1 : (1 : Rat) ≤ m := by exact_mod_cast hm
  have hnum : 0 < num := by
    rcases Nat.eq_zero_or_pos num with rfl | hnum
    · have : (0 : Rat) < (m - 1 / 2) * 2 ^ e := mul_pos (by linarith) hunit
      simp only [Nat.cast_zero, zero_div] at half
      linarith
    · exact hnum
  have top : (num / den : Rat) < 2 ^ ((f.mantissaBits : Int) + 1 + e) := by
    have : (m : Rat) + 1 ≤ 2 ^ (f.mantissaBits + 1) := by exact_mod_cast h.lt
    rw [zpow_add₀ two_ne_zero]
    refine lt_of_le_of_lt high (mul_lt_mul_of_pos_right ?_ hunit)
    exact_mod_cast (by linarith : (m : Rat) + 1 / 2 < 2 ^ (f.mantissaBits + 1))
  obtain ⟨below, above⟩ := floorLog2_spec hnum hden
  have exponent {x y : Int} (h : (2 : Rat) ^ x < 2 ^ y) : x < y := (zpow_lt_zpow_iff_right₀ one_lt_two).mp h
  have finite := h.finite
  unfold Format.round
  rw [if_neg hnum.ne']
  generalize Format.floorLog2 num den = a at below above ⊢
  dsimp only
  by_cases normal : (2 : Rat) ^ ((f.mantissaBits : Int) + e) ≤ num / den ∨ e = f.minExponent
  · -- the quotient has the exponent of the number
    have he : max (a - f.mantissaBits) f.minExponent = e := by
      have := exponent (below.trans_lt top)
      rcases normal with hlow | he
      · have := exponent (hlow.trans_lt above)
        have := h.least
        omega
      · omega
    rw [he, roundDiv_scaled hden half high (hq.half_lt hm), if_neg (Nat.ne_of_lt h.lt), if_neg (by omega)]
  · -- the quotient lies below a power of two that it is rounded up to
    obtain ⟨hlow, hmin⟩ := not_or.mp normal
    have hlow := not_le.mp hlow
    have power := h.eq_two_pow hmin half hlow
    have hmin : f.minExponent < e := lt_of_le_of_ne h.least (Ne.symm hmin)
    have quarter := hq.quarter power hmin
    have he : max (a - f.mantissaBits) f.minExponent = e - 1 := by
      have := exponent_below quarter hlow below above
      omega
    rw [he, roundDiv_below hden quarter hlow, if_pos rfl, power]
    dsimp only
    rw [sub_add_cancel, if_neg (by omega)]

/-! ## Bits -/

theorem Format.bits_eq (f : Format) {bits : Nat} (h : bits < 2 * f.signWeight) :
    (if bits / f.signWeight % 2 = 1 then f.signWeight else 0) +
      bits / 2 ^ f.mantissaBits % 2 ^ f.exponentBits * 2 ^ f.mantissaBits + bits % 2 ^ f.mantissaBits = bits := by
  have weight : f.signWeight = 2 ^ f.mantissaBits * 2 ^ f.exponentBits := Nat.pow_add ..
  have outer := Nat.div_add_mod bits (2 ^ f.mantissaBits)
  have inner := Nat.div_add_mod (bits / 2 ^ f.mantissaBits) (2 ^ f.exponentBits)
  have sign : bits / f.signWeight < 2 := Nat.div_lt_of_lt_mul (by rwa [Nat.mul_comm])
  rw [Nat.div_div_eq_div_mul, ← weight] at inner
  have first : (if bits / f.signWeight % 2 = 1 then f.signWeight else 0) = f.signWeight * (bits / f.signWeight) := by
    generalize bits / f.signWeight = x at sign
    rcases (show x = 0 ∨ x = 1 by omega) with rfl | rfl <;> simp
  rw [first, weight, Nat.mul_assoc, Nat.mul_comm _ (2 ^ f.mantissaBits), ← Nat.mul_add, ← weight, inner]
  exact outer

/-- **Encoding is the inverse of decoding** on the bits of finite numbers. -/
theorem Format.encode_decode {bits : Nat} {s : Bool} (hf : 1 < f.reserved) (hbits : bits < 2 * f.signWeight)
    (h : f.decode bits = .finite s m e) : f.encode s m e = bits ∧ f.Holds m e := by
  have whole := f.bits_eq hbits
  have fraction : bits % 2 ^ f.mantissaBits < 2 ^ f.mantissaBits := Nat.mod_lt _ (Nat.two_pow_pos _)
  have field : bits / 2 ^ f.mantissaBits % 2 ^ f.exponentBits < 2 ^ f.exponentBits := Nat.mod_lt _ (Nat.two_pow_pos _)
  have double : 2 ^ (f.mantissaBits + 1) = 2 ^ f.mantissaBits + 2 ^ f.mantissaBits := by rw [Nat.pow_succ, Nat.mul_two]
  unfold Format.decode at h
  dsimp only at h
  split at h
  · split at h <;> cases h
  · next hreserved =>
    have small : bits / 2 ^ f.mantissaBits % 2 ^ f.exponentBits < f.reserved := by
      unfold Format.reserved at hreserved ⊢
      omega
    generalize bits / 2 ^ f.mantissaBits % 2 ^ f.exponentBits = y at *
    generalize bits % 2 ^ f.mantissaBits = z at *
    split at h
    · next hzero =>
      subst hzero
      cases h
      refine ⟨?_, by omega, Int.le_refl _, .inr rfl, ?_⟩
      · unfold Format.encode
        rw [if_pos fraction]
        simpa using whole
      · omega
    · next hzero =>
      cases h
      refine ⟨?_, by omega, by omega, .inl (Nat.le_add_right ..), ?_⟩
      · unfold Format.encode
        rw [if_neg (by omega), add_sub_cancel_left, Int.toNat_natCast, Nat.sub_add_cancel (by omega),
          Nat.add_sub_cancel_left]
        simpa using whole
      · omega

theorem Format.infinity_lt (f : Format) (s : Bool) : f.infinity s < 2 * f.signWeight := by
  have weight : f.signWeight = 2 ^ f.exponentBits * 2 ^ f.mantissaBits := by rw [Nat.mul_comm]; exact Nat.pow_add ..
  have : f.reserved * 2 ^ f.mantissaBits < 2 ^ f.exponentBits * 2 ^ f.mantissaBits :=
    Nat.mul_lt_mul_of_pos_right (Nat.sub_lt (Nat.two_pow_pos _) one_pos) (Nat.two_pow_pos _)
  unfold Format.infinity
  split <;> omega

theorem Format.encode_lt (s : Bool) (hm : m < 2 ^ (f.mantissaBits + 1)) (hmin : f.minExponent ≤ e)
    (he : e - f.minExponent + 1 < f.reserved) :
    f.encode s m e < 2 * f.signWeight := by
  have weight : f.signWeight = 2 ^ f.exponentBits * 2 ^ f.mantissaBits := by rw [Nat.mul_comm]; exact Nat.pow_add ..
  have sign : (if s then f.signWeight else 0) ≤ f.signWeight := by split <;> omega
  have half : 2 ^ f.mantissaBits ≤ f.signWeight := Nat.pow_le_pow_right two_pos (Nat.le_add_right _ _)
  rw [Nat.pow_succ] at hm
  unfold Format.encode
  dsimp only
  split
  · omega
  · have field : (e - f.minExponent).toNat + 1 + 1 ≤ 2 ^ f.exponentBits := by
      unfold Format.reserved at he
      have := Nat.two_pow_pos f.exponentBits
      omega
    have := Nat.mul_le_mul_right (2 ^ f.mantissaBits) field
    rw [Nat.add_mul, Nat.one_mul, ← weight] at this
    omega

theorem roundDiv_le {num den k : Nat} (h : num / den < k) : Format.roundDiv num den ≤ k := by
  unfold Format.roundDiv
  dsimp only
  split
  · omega
  · split <;> omega

/-- Rounding gives the bits of a number of the format. -/
theorem Format.round_lt (hf : 1 < f.reserved) (s : Bool) {num den : Nat} (hden : 0 < den) :
    f.round s num den < 2 * f.signWeight := by
  unfold Format.round
  split
  · exact Format.encode_lt s (Nat.two_pow_pos _) (Int.le_refl _) (by omega)
  · next hnum =>
    obtain ⟨-, above⟩ := floorLog2_spec (Nat.pos_of_ne_zero hnum) hden
    generalize Format.floorLog2 num den = a at above ⊢
    dsimp only
    generalize he : max (a - f.mantissaBits) f.minExponent = e
    have hunit : (0 : Rat) < 2 ^ e := by positivity
    have quotient : num * 2 ^ (-e).toNat / (den * 2 ^ e.toNat) < 2 ^ (f.mantissaBits + 1) := by
      have scaled := scaled_div num den two_ne_zero e
      have hden' : 0 < den * 2 ^ e.toNat := Nat.mul_pos hden (by positivity)
      have hden'' : (0 : Rat) < (den * 2 ^ e.toNat : Nat) := by exact_mod_cast hden'
      have below : ((num * 2 ^ (-e).toNat : Nat) : Rat) / (den * 2 ^ e.toNat : Nat) <
          (2 ^ (f.mantissaBits + 1) : Nat) := by
        rw [scaled, Nat.cast_ofNat, div_lt_iff₀ hunit, Nat.cast_pow, Nat.cast_ofNat, ← zpow_natCast,
          ← zpow_add₀ two_ne_zero]
        refine above.trans_le (zpow_le_zpow_right₀ one_le_two ?_)
        push_cast
        omega
      rw [div_lt_iff₀ hden''] at below
      rw [Nat.div_lt_iff_lt_mul hden']
      exact_mod_cast below
    have rounded := roundDiv_le quotient
    generalize Format.roundDiv (num * 2 ^ (-e).toNat) (den * 2 ^ e.toNat) = m at rounded ⊢
    have power : 2 ^ f.mantissaBits < 2 ^ (f.mantissaBits + 1) := Nat.pow_lt_pow_right one_lt_two (Nat.lt_succ_self _)
    by_cases hm : m = 2 ^ (f.mantissaBits + 1)
    · rw [if_pos hm]
      dsimp only
      split
      · exact f.infinity_lt s
      · exact Format.encode_lt s power (by omega) (by omega)
    · rw [if_neg hm]
      dsimp only
      split
      · exact f.infinity_lt s
      · exact Format.encode_lt s (by omega) (by omega) (by omega)

end

end GateAsm.Floating
