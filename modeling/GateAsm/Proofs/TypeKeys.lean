import GateAsm.Proofs.Interning
import GateAsm.Proofs.Keys
import Mathlib.Data.Nat.Cast.Field

/-!
# Keys of types

The key of a type is its class with its parameters. Two types that their classes make are the same exactly if their
keys are equal (`StoredType.same_iff_keyed`), and a class looks for what it makes of parameters under the key that
these parameters are (`TyClass.Makes.keyed_iff`).
-/

namespace GateAsm

/-! ## Numbers as parameters -/

namespace Floating.Number

theorem value?_of_toInt? {x : Number} {n : Int} (h : x.toInt? = some n) : x.value? = some (.inr n) := by
  cases x with
  | nan => cases h
  | infinite s => cases h
  | finite s m e =>
    obtain ⟨k, hk, rfl⟩ := Option.map_eq_some_iff.mp h
    obtain ⟨a, ha, hk⟩ := Option.bind_eq_some_iff.mp hk
    obtain rfl : (a : Int) = k := Option.some.inj hk
    have magnitude : (m * 2 ^ e : Rat) = a := by
      split at ha
      · next he =>
        obtain rfl := Option.some.inj ha
        rw [Nat.cast_mul, Nat.cast_pow, Nat.cast_ofNat, ← zpow_natCast, Int.toNat_of_nonneg he]
      · next he =>
        split at ha
        · next hdvd =>
          obtain rfl := Option.some.inj ha
          have two : ((2 ^ (-e).toNat : Nat) : Rat) ≠ 0 := by simp
          rw [Nat.cast_div (Nat.dvd_of_mod_eq_zero hdvd) two, Nat.cast_pow, Nat.cast_ofNat, ← zpow_natCast,
            Int.toNat_of_nonneg (by omega), zpow_neg, div_inv_eq_mul]
        · cases ha
    simp only [value?, mul_assoc, magnitude]
    cases s <;> simp

end Floating.Number

namespace Attr

def Counts (a : Attr) (n : Nat) : Prop := ∃ x, a.number? = some x ∧ x.value? = some (.inr (n : Rat))

theorem Counts.agree_iff {a b : Attr} {m n : Nat} (ha : a.Counts m) (hb : b.Counts n) : a.agree b = true ↔ m = n := by
  obtain ⟨x, hx, hm⟩ := ha
  obtain ⟨y, hy, hn⟩ := hb
  rw [agree_of_number hx hy, Floating.Number.equal_iff, hm, hn]
  simp [eq_comm]

theorem counts_int {n : Int} (h : 0 ≤ n) : (int n).Counts n.toNat := by
  refine ⟨_, rfl, ?_⟩
  obtain ⟨k, rfl⟩ := Int.eq_ofNat_of_zero_le h
  simp [Floating.Number.value?]

end Attr

namespace Ty

theorem counts_ofIntegerWidth {a : Attr} {w : Width} (h : ofIntegerWidth a = .ok (.integer w)) : a.Counts w.value := by
  unfold ofIntegerWidth at h
  split at h
  · split at h
    · next hn => cases h; exact Attr.counts_int (by omega)
    · cases h
  · cases h; exact ⟨_, rfl, by simp [Attr.bitNumber, Floating.Number.value?]⟩
  · cases h

theorem counts_numberOf? {a : Attr} {n : Int} {f : NumberForm} (h : numberOf? a = some (n, f)) (hn : 0 ≤ n) :
    a.Counts n.toNat := by
  have whole : ∀ {x : Double} {g : NumberForm}, x.number.toInt?.map (·, g) = some (n, f) →
      x.number.value? = some (.inr (n.toNat : Rat)) := by
    intro x g hx
    obtain ⟨m, hm, he⟩ := Option.map_eq_some_iff.mp hx
    cases he
    obtain ⟨k, rfl⟩ := Int.eq_ofNat_of_zero_le hn
    simpa using Floating.Number.value?_of_toInt? hm
  unfold numberOf? at h
  split at h
  · cases h; exact Attr.counts_int hn
  · cases h; exact Attr.counts_int hn
  · exact ⟨_, rfl, whole h⟩
  · exact ⟨_, rfl, whole h⟩
  · exact ⟨_, rfl, whole h⟩
  · cases h

theorem counts_ofFloatWidth {a : Attr} {w : Width} (h : ofFloatWidth a = .ok (.float w)) : a.Counts w.value := by
  unfold ofFloatWidth at h
  split at h
  · next n f hf =>
    split at h
    · next hn => cases h; exact counts_numberOf? hf (by omega)
    · cases h
  · cases h

theorem counts_widthAttr {w : Width} (h : (Ty.integer w).Made ∨ (Ty.float w).Made) : (widthAttr w).Counts w.value := by
  obtain ⟨n, f⟩ := w
  cases f with
  | int | int64 => exact Attr.counts_int (Int.natCast_nonneg n)
  | bool =>
    rcases h with h | h
    · rcases h with h | h
      · cases h; exact ⟨_, rfl, by simp [Attr.bitNumber, Floating.Number.value?]⟩
      · obtain ⟨h, -⟩ := h
        cases h
    · exact absurd rfl h.1
  | float | float32 =>
    rcases h with h | h
    · rcases h with h | h
      · cases h
      · obtain ⟨h, -⟩ := h
        cases h
    · -- there are three widths only
      have exact : ∀ n ∈ [16, 32, 64], (Double.ofInt (n : Nat)).number.toInt? = some (n : Int) := by decide +kernel
      exact ⟨_, rfl, Floating.Number.value?_of_toInt? (exact n (by simpa using h.2))⟩

theorem agree_countAttr {m n : Option Nat} : (countAttr m).agree (countAttr n) = true ↔ m = n := by
  cases m with
  | none => cases n <;> simp [countAttr, Attr.agree, Attr.number?]
  | some m =>
    cases n with
    | none => simp [countAttr, Attr.agree, Attr.number?]
    | some n =>
      have := (Attr.counts_int (Int.natCast_nonneg m)).agree_iff (Attr.counts_int (Int.natCast_nonneg n))
      simpa [countAttr] using this

theorem count_ofRegisterSize {a : Attr} {n : Option Nat} (h : ofRegisterSize a = .ok (.register n)) :
    a = countAttr n := by
  unfold ofRegisterSize at h
  split at h
  · cases h; rfl
  · split at h
    · next hn =>
      cases h
      exact congrArg Attr.int (Int.toNat_of_nonneg (by omega)).symm
    · cases h
  · cases h

theorem count_ofBaseAndCount {a b : Attr} {base : GateBase} {n : Option Nat}
    (h : ofBaseAndCount a b = .ok (.controlled base n)) : b = countAttr n := by
  unfold ofBaseAndCount at h
  split at h
  · cases h
  · split at h
    · cases h; rfl
    · split at h
      · next hn =>
        cases h
        exact congrArg Attr.int (Int.toNat_of_nonneg (by omega)).symm
      · cases h
    · cases h

@[simp]
theorem tyClass_plain (t : Ty) : t.plain.tyClass = t.tyClass := by cases t <;> rfl

theorem same_width {w v : Width} {f : Width → Ty} (hf : f = integer ∨ f = float) :
    (f w).same (f v) = true ↔ w.value = v.value := by
  rcases hf with rfl | rfl <;> simp [same, plain, Width.ofNat]

end Ty

/-! ## Keys -/

def StoredType.Keyed (s : StoredType) (c : TyClass) (key : List Surplus) : Prop :=
  s.type.tyClass = c ∧ Surplus.allAgree s.key key = true

instance (s : StoredType) (c : TyClass) (key : List Surplus) : Decidable (s.Keyed c key) := by
  unfold StoredType.Keyed
  infer_instance

theorem StoredType.same_iff_keyed {a b : StoredType} (ha : a.Formed) (hb : b.Formed) :
    a.same b = true ↔ a.Keyed b.type.tyClass b.key := by
  obtain ⟨t, ps⟩ := a
  obtain ⟨u, qs⟩ := b
  -- types of different classes are neither the same nor under the same key
  by_cases hc : t.tyClass = u.tyClass
  · cases t with
    | integer w =>
      cases u with
      | integer v =>
        obtain rfl := ha.surplus rfl
        obtain rfl := hb.surplus rfl
        have := (Ty.counts_widthAttr (.inl (ha.made Nat.one_ne_zero))).agree_iff
          (Ty.counts_widthAttr (.inl (hb.made Nat.one_ne_zero)))
        simpa [same, Keyed, key, Ty.params, Ty.tyClass, Surplus.allAgree, Surplus.agree, this] using
          Ty.same_width (.inl rfl)
      | _ => cases hc
    | float w =>
      cases u with
      | float v =>
        obtain rfl := ha.surplus rfl
        obtain rfl := hb.surplus rfl
        have := (Ty.counts_widthAttr (.inr (ha.made Nat.one_ne_zero))).agree_iff
          (Ty.counts_widthAttr (.inr (hb.made Nat.one_ne_zero)))
        simpa [same, Keyed, key, Ty.params, Ty.tyClass, Surplus.allAgree, Surplus.agree, this] using
          Ty.same_width (.inr rfl)
      | _ => cases hc
    | register m =>
      cases u with
      | register n =>
        obtain rfl := ha.surplus rfl
        obtain rfl := hb.surplus rfl
        simp [same, Keyed, key, Ty.params, Ty.tyClass, Surplus.allAgree, Surplus.agree, Ty.agree_countAttr,
          Ty.same, Ty.plain]
      | _ => cases hc
    | controlled b m =>
      cases u with
      | controlled c n =>
        have base : b.ty.same c.ty = true ↔ b = c := by cases b <;> cases c <;> decide
        have gate : (Ty.controlled b m).same (.controlled c n) = true ↔ b = c ∧ m = n := by simp [Ty.same, Ty.plain]
        simp only [same, Keyed, key, Ty.tyClass, Surplus.allAgree, Surplus.agree, Bool.and_eq_true, Ty.agree_countAttr,
          base, gate, true_and, and_true]
        tauto
      | _ => cases hc
    | _ =>
      cases u with
      | integer | float | register | controlled => cases hc
      | _ =>
        first
        | cases hc; done
        | simp [same, Keyed, key, Ty.params, Ty.tyClass]
  · refine ⟨fun h => absurd ?_ hc, fun h => absurd h.1 hc⟩
    have := congrArg Ty.tyClass (Ty.same_iff.mp (Bool.and_eq_true_iff.mp h).1)
    simpa using this

theorem TypeParam.key_of_value {p : TypeParam} (h : p.value.type? = none) : p.key = .value p.value := by
  cases p with
  | attr a =>
    cases a with
    | type t => cases h
    | _ => rfl
  | owned t => cases h

theorem TypeParam.key_of_type {p : TypeParam} {t : Ty} (h : p.value = .type t) : p.key = .type t p.surplus := by
  cases p with
  | attr a =>
    obtain rfl : a = .type t := h
    rfl
  | owned u =>
    obtain rfl : u.type = t := Attr.type.inj h
    rfl

theorem Attr.Counts.type?_eq_none {a : Attr} {n : Nat} (h : a.Counts n) : a.type? = Option.none := by
  obtain ⟨x, hx, -⟩ := h
  cases a with
  | type t => cases hx
  | _ => rfl

@[simp]
theorem Ty.type?_countAttr (n : Option Nat) : (Ty.countAttr n).type? = none := by cases n <;> rfl

namespace TyClass

variable {c : TyClass} {ps : List TypeParam} {s e : StoredType}

/-- The parameters are equal to those of the type that the class makes of them, if not the same. -/
theorem Makes.agrees (h : c.Makes ps s) :
    s.type.tyClass = c ∧ (s.key = ps.map TypeParam.key ∨ Surplus.allAgree s.key (ps.map TypeParam.key) = true) := by
  have counted : ∀ {w : Width} {a : TypeParam}, (Ty.widthAttr w).Counts w.value → a.value.Counts w.value →
      Surplus.allAgree [.value (Ty.widthAttr w)] [a.key] = true := by
    intro w a hw ha
    rw [TypeParam.key_of_value ha.type?_eq_none]
    simpa [Surplus.allAgree, Surplus.agree] using (hw.agree_iff ha).mpr rfl
  cases h with
  | @integer a t h =>
    have hc := Ty.tyClass_ofIntegerWidth h
    cases t with
    | integer w =>
      exact ⟨rfl, .inr (counted (Ty.counts_widthAttr (.inl (Ty.made_ofIntegerWidth h))) (Ty.counts_ofIntegerWidth h))⟩
    | _ => cases hc
  | @float a t h =>
    have hc := Ty.tyClass_ofFloatWidth h
    cases t with
    | float w =>
      exact ⟨rfl, .inr (counted (Ty.counts_widthAttr (.inr (Ty.made_ofFloatWidth h))) (Ty.counts_ofFloatWidth h))⟩
    | _ => cases hc
  | @register a t h =>
    have hc := Ty.tyClass_ofRegisterSize h
    cases t with
    | register n =>
      have value := Ty.count_ofRegisterSize h
      have := TypeParam.key_of_value (p := a) (by rw [value, Ty.type?_countAttr])
      exact ⟨rfl, .inl (by simp [StoredType.key, Ty.params, this, value])⟩
    | _ => cases hc
  | @controlled a b t h =>
    obtain ⟨base, n, typed, rfl⟩ := Ty.base_ofBaseAndCount h
    have value := Ty.count_ofBaseAndCount h
    have := TypeParam.key_of_value (p := b) (by rw [value, Ty.type?_countAttr])
    exact ⟨rfl, .inl (by simp [StoredType.key, this, value, TypeParam.key_of_type typed])⟩
  | @plain _ _ t h =>
    refine ⟨tyClass_of_plain? h, .inl ?_⟩
    cases c <;> cases h <;> rfl

theorem Makes.keyed_iff (h : c.Makes ps s) (hs : s.Formed) (he : e.Formed) :
    e.Keyed c (ps.map TypeParam.key) ↔ e.same s = true := by
  obtain ⟨rfl, agrees⟩ := h.agrees
  rw [StoredType.same_iff_keyed he hs]
  refine and_congr_right fun _ => ?_
  rcases agrees with same | agrees
  · rw [same]
  · exact ⟨fun h => Surplus.allAgree_trans h (Surplus.allAgree_symm agrees), fun h => Surplus.allAgree_trans h agrees⟩

end TyClass

end GateAsm
