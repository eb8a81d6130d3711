import GateAsm.Proofs.Floating.Rounding

/-!
# The shortest decimal rounds back

A grid of decimals that is finer than the interval of a number has a decimal in it, and `shortest` looks at
grids down to one that is fine enough. Where it starts is told by the logarithm of the number; that the guess
is good is checked for all exponents that a double can have.
-/

namespace GateAsm.Floating

def Decimal.value (d : Decimal) : Rat := d.digits * 10 ^ d.exponent

namespace RoundingInterval

variable {i : RoundingInterval} {d : Decimal} {a : Int}

def center (i : RoundingInterval) : Rat := i.value / i.scale

theorem holds_iff (hs : 0 < i.scale) : i.holds d = true ↔ i.Contains d.value := by
  have scale : (0 : Rat) < i.scale := by exact_mod_cast hs
  have ten : (0 : Rat) < 10 ^ (-d.exponent).toNat := by positivity
  have value : d.value = d.digits * 10 ^ d.exponent.toNat / 10 ^ (-d.exponent).toNat := by
    rw [Decimal.value, ← pow_toNat_div 10 d.exponent, mul_div_assoc]
  have low : i.low * 10 ^ (-d.exponent).toNat ≤ d.digits * 10 ^ d.exponent.toNat * i.scale ↔
      (i.low : Rat) / i.scale ≤ d.value := by
    rw [value, div_le_div_iff₀ scale ten]
    exact_mod_cast Iff.rfl
  have high : d.digits * 10 ^ d.exponent.toNat * i.scale ≤ i.high * 10 ^ (-d.exponent).toNat ↔
      d.value ≤ (i.high : Rat) / i.scale := by
    rw [value, div_le_div_iff₀ ten scale]
    exact_mod_cast Iff.rfl
  have low' : i.low * 10 ^ (-d.exponent).toNat < d.digits * 10 ^ d.exponent.toNat * i.scale ↔
      (i.low : Rat) / i.scale < d.value := by
    rw [value, div_lt_div_iff₀ scale ten]
    exact_mod_cast Iff.rfl
  have high' : d.digits * 10 ^ d.exponent.toNat * i.scale < i.high * 10 ^ (-d.exponent).toNat ↔
      d.value < (i.high : Rat) / i.scale := by
    rw [value, div_lt_div_iff₀ ten scale]
    exact_mod_cast Iff.rfl
  unfold holds
  dsimp only
  cases hc : i.closed with
  | true =>
    simp only [if_true, Bool.and_eq_true, decide_eq_true_eq, low, high]
    exact ⟨fun h => ⟨h.1, h.2, fun h' => absurd (hc.symm.trans h') nofun⟩, fun h => ⟨h.low, h.high⟩⟩
  | false =>
    simp only [Bool.false_eq_true, if_false, Bool.and_eq_true, decide_eq_true_eq, low', high']
    exact ⟨fun h => ⟨h.1.le, h.2.le, fun _ => h⟩, fun h => h.inner hc⟩

/-! ## Grids -/

theorem neighbours_spec (hs : 0 < i.scale) :
    (i.neighbours a).1.exponent = a ∧ (i.neighbours a).2 = ⟨(i.neighbours a).1.digits + 1, a⟩ ∧
      (i.neighbours a).1.value ≤ i.center ∧ i.center < (i.neighbours a).2.value := by
  have scaled := scaled_div i.value i.scale (b := 10) (by norm_num) a
  have hden : 0 < i.scale * 10 ^ a.toNat := Nat.mul_pos hs (by positivity)
  have hden' : (0 : Rat) < (i.scale * 10 ^ a.toNat : Nat) := by exact_mod_cast hden
  have unit : (0 : Rat) < (10 : Rat) ^ a := by positivity
  have below := Nat.div_mul_le_self (i.value * 10 ^ (-a).toNat) (i.scale * 10 ^ a.toNat)
  have above := Nat.lt_div_mul_add (a := i.value * 10 ^ (-a).toNat) hden
  refine ⟨rfl, rfl, ?_, ?_⟩
  · show ((i.value * 10 ^ (-a).toNat / (i.scale * 10 ^ a.toNat) : Nat) : Rat) * 10 ^ a ≤ i.value / i.scale
    rw [← le_div_iff₀ unit]
    rw [Nat.cast_ofNat] at scaled
    rw [← scaled, le_div_iff₀ hden']
    exact_mod_cast below
  · show _ < ((i.value * 10 ^ (-a).toNat / (i.scale * 10 ^ a.toNat) + 1 : Nat) : Rat) * 10 ^ a
    rw [← div_lt_iff₀ unit]
    rw [Nat.cast_ofNat] at scaled
    show (i.value : Rat) / i.scale / 10 ^ a < _
    rw [← scaled, div_lt_iff₀ hden', Nat.cast_succ, add_mul, one_mul]
    exact_mod_cast above

theorem onGrid?_spec (hs : 0 < i.scale) (h : i.onGrid? a = some d) :
    i.Contains d.value ∧ 0 < d.digits ∧ d.exponent = a ∧ d.digits ≤ (i.neighbours a).1.digits + 1 := by
  obtain ⟨exponent, above, -, -⟩ := neighbours_spec (i := i) (a := a) hs
  have found : (d = (i.neighbours a).1 ∧ (i.holds d && d.digits != 0) = true) ∨
      (d = (i.neighbours a).2 ∧ i.holds d = true) := by
    unfold onGrid? at h
    generalize i.neighbours a = x at h
    obtain ⟨b, c⟩ := x
    dsimp only at h
    split at h
    · cases h
    · next hb _ => cases h; exact .inl ⟨rfl, hb⟩
    · next _ hc => cases h; exact .inr ⟨rfl, hc⟩
    · next hb hc =>
      split at h
      · cases h; exact .inl ⟨rfl, hb⟩
      · split at h
        · cases h; exact .inr ⟨rfl, hc⟩
        · split at h
          · cases h; exact .inl ⟨rfl, hb⟩
          · cases h; exact .inr ⟨rfl, hc⟩
  rcases found with ⟨rfl, hb⟩ | ⟨rfl, hc⟩
  · obtain ⟨hholds, hpos⟩ := Bool.and_eq_true_iff.mp hb
    exact ⟨(holds_iff hs).mp hholds, Nat.pos_of_ne_zero (by simpa using hpos), exponent, Nat.le_succ _⟩
  · refine ⟨(holds_iff hs).mp hc, ?_, ?_, ?_⟩ <;> rw [above]
    · exact Nat.succ_pos _

theorem onGrid?_isSome (hs : 0 < i.scale) (hlow : i.low < i.value) (hfine : i.center + 10 ^ a < i.high / i.scale) :
    (i.onGrid? a).isSome = true := by
  obtain ⟨exponent, above, hbelow, habove⟩ := neighbours_spec (i := i) (a := a) hs
  have scale : (0 : Rat) < i.scale := by exact_mod_cast hs
  have next : (i.neighbours a).2.value = (i.neighbours a).1.value + 10 ^ a := by
    rw [above, Decimal.value, Decimal.value, exponent]
    push_cast
    ring
  have low : (i.low : Rat) / i.scale < i.center := div_lt_div_of_pos_right (by exact_mod_cast hlow) scale
  have inside : i.holds (i.neighbours a).2 = true := by
    refine (holds_iff hs).mpr ⟨(low.trans habove).le, ?_, fun _ => ⟨low.trans habove, ?_⟩⟩ <;> rw [next] <;> linarith
  unfold onGrid?
  generalize i.neighbours a = x at inside
  obtain ⟨b, c⟩ := x
  dsimp only at inside ⊢
  rw [inside]
  cases i.holds b && b.digits != 0 with
  | false => rfl
  | true =>
    dsimp only
    split
    · rfl
    · split
      · rfl
      · split <;> rfl

theorem coarsest?_spec {grids k : Nat} (hk : k < grids) (h : (i.onGrid? (a - k)).isSome = true) :
    ∃ d, ∃ j ≤ k, i.coarsest? grids a = some d ∧ i.onGrid? (a - j) = some d := by
  induction grids generalizing a k with
  | zero => cases hk
  | succ grids ih =>
    rw [coarsest?]
    cases hd : i.onGrid? a with
    | some d => exact ⟨d, 0, Nat.zero_le k, rfl, by simpa using hd⟩
    | none =>
      cases k with
      | zero => simp [hd] at h
      | succ k =>
        have shift (j : Nat) : a - (j + 1 : Nat) = a - 1 - j := by push_cast; ring
        obtain ⟨d, j, hj, hd, hg⟩ := ih (Nat.lt_of_succ_lt_succ hk) (shift k ▸ h)
        exact ⟨d, j + 1, Nat.succ_le_succ hj, hd, shift j ▸ hg⟩

/-! ## The first grid -/

def guess (l : Int) : Int := l * 30103 / 100000

def goodGuess (l : Int) : Bool :=
  let g := guess l
  10 ^ (g - 1).toNat * 2 ^ (-l).toNat ≤ 2 ^ l.toNat * 10 ^ (1 - g).toNat &&
    2 ^ (l + 2).toNat * 10 ^ (-(g + 2)).toNat ≤ 10 ^ (g + 2).toNat * 2 ^ (-(l + 2)).toNat

theorem goodGuess_all : ((List.range 2200).all fun n => goodGuess (n - 1100)) = true := by decide +kernel

theorem zpow_le_zpow_iff {b c : Rat} (hb : 0 < b) (hc : 0 < c) {x y : Int} :
    b ^ x.toNat * c ^ (-y).toNat ≤ c ^ y.toNat * b ^ (-x).toNat ↔ b ^ x ≤ c ^ y := by
  rw [← pow_toNat_div b x, ← pow_toNat_div c y, div_le_div_iff₀ (by positivity) (by positivity)]

theorem guess_spec {l : Int} (h : -1100 ≤ l ∧ l < 1100) :
    (10 : Rat) ^ (guess l - 1) ≤ 2 ^ l ∧ (2 : Rat) ^ (l + 2) ≤ 10 ^ (guess l + 2) := by
  have good := List.all_eq_true.mp goodGuess_all (l + 1100).toNat (List.mem_range.mpr (by omega))
  rw [show ((l + 1100).toNat : Int) - 1100 = l by omega] at good
  obtain ⟨low, high⟩ := Bool.and_eq_true_iff.mp good
  rw [← zpow_le_zpow_iff (by norm_num) (by norm_num), ← zpow_le_zpow_iff (by norm_num) (by norm_num), neg_sub]
  exact ⟨by exact_mod_cast of_decide_eq_true low, by exact_mod_cast of_decide_eq_true high⟩

def binaryExponent (i : RoundingInterval) : Int := (i.value.log2 : Int) - i.scale.log2 - 1

theorem binaryExponent_spec (hv : 0 < i.value) (hs : 0 < i.scale) :
    (2 : Rat) ^ i.binaryExponent ≤ i.center ∧ i.center < 2 ^ (i.binaryExponent + 2) := by
  obtain ⟨low, high⟩ := floorLog2_spec hv hs
  have bounds : i.binaryExponent ≤ Format.floorLog2 i.value i.scale ∧
      Format.floorLog2 i.value i.scale + 1 ≤ i.binaryExponent + 2 := by
    unfold Format.floorLog2 binaryExponent
    dsimp only
    split <;> omega
  exact ⟨(zpow_le_zpow_right₀ one_le_two bounds.1).trans low, high.trans_le (zpow_le_zpow_right₀ one_le_two bounds.2)⟩

/-- The search starts near the first digit of the number. -/
theorem decimalExponent_spec (hv : 0 < i.value) (hs : 0 < i.scale)
    (hl : -1100 ≤ i.binaryExponent ∧ i.binaryExponent < 1100) :
    (10 : Rat) ^ i.decimalExponent ≤ i.center ∧ i.center < 10 ^ (i.decimalExponent + 3) ∧
      guess i.binaryExponent - 1 ≤ i.decimalExponent ∧ i.decimalExponent ≤ guess i.binaryExponent + 1 := by
  have scale : (0 : Rat) < i.scale := by exact_mod_cast hs
  obtain ⟨low, high⟩ := binaryExponent_spec hv hs
  obtain ⟨low', high'⟩ := guess_spec hl
  have fits (a : Int) : i.scale * 10 ^ a.toNat ≤ i.value * 10 ^ (-a).toNat ↔ (10 : Rat) ^ a ≤ i.center := by
    rw [center, ← pow_toNat_div 10 a, div_le_div_iff₀ (by positivity) scale, mul_comm]
    exact_mod_cast Iff.rfl
  have most {a : Int} (ha : guess i.binaryExponent - 1 ≤ a) : i.center < 10 ^ (a + 3) :=
    high.trans_le (high'.trans (zpow_le_zpow_right₀ (by norm_num) (by omega)))
  unfold decimalExponent
  rw [show ((i.value.log2 : Int) - i.scale.log2 - 1) * 30103 / 100000 = guess i.binaryExponent from rfl]
  simp only [decide_eq_true_eq]
  split
  · next h => exact ⟨(fits _).mp h, most (by omega), by omega, by omega⟩
  · split
    · next h => exact ⟨(fits _).mp h, most (by omega), by omega, by omega⟩
    · exact ⟨low'.trans low, most (by omega), by omega, by omega⟩

end RoundingInterval

/-! ## Doubles -/

open RoundingInterval

variable {m : Nat} {e : Int}

theorem Format.Holds.double (h : Format.double.Holds m e) : m < 2 ^ 53 ∧ -1074 ≤ e ∧ e ≤ 971 := by
  have bits : (2 : Nat) ^ (Format.double.mantissaBits + 1) = 2 ^ 53 := rfl
  have least : Format.double.minExponent = -1074 := by decide +kernel
  have reserved : Format.double.reserved = 2047 := by decide +kernel
  obtain ⟨hm, he, -, hf⟩ := h
  rw [least] at he hf
  rw [reserved] at hf
  exact ⟨bits ▸ hm, he, by omega⟩

theorem roundingInterval_pos (f : Format) (e : Int) (hm : 0 < m) :
    0 < (roundingInterval f m e).scale ∧ 0 < (roundingInterval f m e).value ∧
      (roundingInterval f m e).low < (roundingInterval f m e).value := by
  have up : 0 < 2 ^ e.toNat := Nat.two_pow_pos _
  refine ⟨Nat.mul_pos (by decide) (Nat.two_pow_pos _), Nat.mul_pos (by omega) up, Nat.mul_lt_mul_of_pos_right ?_ up⟩
  split <;> omega

theorem binaryExponent_double (h : Format.double.Holds m e) (hm : 0 < m) :
    -1100 ≤ (roundingInterval .double m e).binaryExponent ∧ (roundingInterval .double m e).binaryExponent < 1100 := by
  obtain ⟨hscale, hvalue, -⟩ := roundingInterval_pos .double e hm
  obtain ⟨hlt, hleast, hmost⟩ := h.double
  have value : (roundingInterval .double m e).value < 2 ^ 1027 := by
    have := Nat.mul_le_mul (Nat.mul_le_mul_left 4 hlt.le) (Nat.pow_le_pow_right two_pos (show e.toNat ≤ 971 by omega))
    exact lt_of_le_of_lt this (by decide +kernel)
  have scale : (roundingInterval .double m e).scale < 2 ^ 1077 := by
    have := Nat.mul_le_mul_left 4 (Nat.pow_le_pow_right two_pos (show (-e).toNat ≤ 1074 by omega))
    exact lt_of_le_of_lt this (by decide +kernel)
  have hv := (Nat.log2_lt hvalue.ne').mpr value
  have hs := (Nat.log2_lt hscale.ne').mpr scale
  unfold binaryExponent
  omega

theorem fine_grid (h : Format.double.Holds m e) {a : Int}
    (ha : (10 : Rat) ^ a ≤ (roundingInterval .double m e).center) :
    (roundingInterval .double m e).center + 10 ^ (a - 17) <
      (roundingInterval .double m e).high / (roundingInterval .double m e).scale := by
  have hunit : (0 : Rat) < 2 ^ e := by positivity
  have hlt : (m : Rat) < 2 ^ 53 := by exact_mod_cast h.double.1
  rw [show (roundingInterval .double m e).center = m * 2 ^ e from roundingInterval_value] at ha ⊢
  rw [roundingInterval_high, zpow_sub₀ (by norm_num)]
  have small : (10 : Rat) ^ a / 10 ^ (17 : Int) < 1 / 2 * 2 ^ e := by
    rw [div_lt_iff₀ (by norm_num)]
    nlinarith
  linarith

/-- **The shortest decimal reads back**, and is one of moderate size. -/
theorem shortest_spec (h : Format.double.Holds m e) (hm : 0 < m) :
    (roundingInterval .double m e).Contains (shortest .double m e).value ∧ 0 < (shortest .double m e).digits ∧
      (shortest .double m e).digits < 10 ^ 21 ∧ -350 ≤ (shortest .double m e).exponent ∧
      (shortest .double m e).exponent ≤ 335 := by
  obtain ⟨hscale, hvalue, hlow⟩ := roundingInterval_pos .double e hm
  have range := binaryExponent_double h hm
  obtain ⟨low, high, least, most⟩ := decimalExponent_spec hvalue hscale range
  have fine := onGrid?_isSome hscale hlow (fine_grid h low)
  obtain ⟨d, j, hj, found, grid⟩ := coarsest?_spec (show 17 < 18 by decide) fine
  have same : shortest .double m e = d := by rw [shortest, found]; rfl
  rw [same]
  generalize roundingInterval .double m e = i at *
  obtain ⟨contains_, pos, exponent, digits⟩ := onGrid?_spec hscale grid
  refine ⟨contains_, pos, ?_, ?_, ?_⟩
  · -- the neighbour below has at most twenty digits on the finest grid
    obtain ⟨hexp, -, below, -⟩ := neighbours_spec (a := i.decimalExponent - j) hscale
    have unit : (0 : Rat) < 10 ^ (i.decimalExponent - j) := by positivity
    have bound : ((i.neighbours (i.decimalExponent - j)).1.digits : Rat) < 10 ^ 20 := by
      rw [Decimal.value, hexp, ← le_div_iff₀ unit] at below
      refine below.trans_lt ?_
      rw [div_lt_iff₀ unit]
      refine high.trans_le ?_
      rw [← zpow_natCast, ← zpow_add₀ (by norm_num)]
      exact zpow_le_zpow_right₀ (by norm_num) (by omega)
    have : (i.neighbours (i.decimalExponent - j)).1.digits < 10 ^ 20 := by exact_mod_cast bound
    omega
  · rw [exponent]
    unfold guess at least
    omega
  · rw [exponent]
    unfold guess at most
    omega

end GateAsm.Floating
