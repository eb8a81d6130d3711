import GateAsm.Ty.Owned
import Mathlib.Algebra.Order.Field.Power
import Mathlib.Tactic.Ring

/-!
# Equality of keys

Numbers are equal by their values, whatever their form, and NaN equals nothing, not even itself. So equality of
parameters need not be reflexive, but it is symmetric and transitive, and that is all that looking up a key needs.
-/

namespace GateAsm

/-! ## Numbers -/

namespace Floating.Number

def value? : Number → Option (Bool ⊕ Rat)
  | nan => none
  | infinite s => some (.inl s)
  | finite s m e => some (.inr ((if s then -1 else 1) * m * 2 ^ e))

theorem compareFinite_eq_iff {s s' : Bool} {m m' : Nat} {e e' : Int} :
    compareFinite s m e s' m' e' = .eq ↔
      ((if s then -1 else 1) * m * 2 ^ e : Rat) = (if s' then -1 else 1) * m' * 2 ^ e' := by
  have two : (2 : Rat) ^ min e e' ≠ 0 := zpow_ne_zero _ two_ne_zero
  -- both sides are brought to the smaller exponent
  have scaled : ∀ (s : Bool) (m : Nat) (e'' : Int), min e e' ≤ e'' →
      ((if s then -1 else 1) * m * 2 ^ e'' : Rat) =
        ((if s then -1 else 1) * (m * 2 ^ (e'' - min e e').toNat : Nat) : Int) * 2 ^ min e e' := by
    intro s m e'' h
    have split : (2 : Rat) ^ e'' = 2 ^ (e'' - min e e').toNat * 2 ^ min e e' := by
      rw [← zpow_natCast, Int.toNat_of_nonneg (by omega), ← zpow_add₀ two_ne_zero]
      congr 1
      omega
    rw [split]
    cases s <;> push_cast <;> ring
  rw [scaled s m e (by omega), scaled s' m' e' (by omega), mul_left_inj' two, Int.cast_inj]
  exact compare_eq_iff_eq

theorem equal_iff {x y : Number} : x.equal y = true ↔ ∃ v, x.value? = some v ∧ y.value? = some v := by
  cases x with
  | nan => simp [equal, compare?, value?]
  | infinite s =>
    cases y with
    | nan => simp [equal, compare?, value?]
    | infinite s' => cases s <;> cases s' <;> simp [equal, compare?, value?]
    | finite s' m' e' => cases s <;> simp [equal, compare?, value?]
  | finite s m e =>
    cases y with
    | nan => simp [equal, compare?, value?]
    | infinite s' => cases s' <;> simp [equal, compare?, value?]
    | finite s' m' e' =>
      simp only [equal, compare?, value?, decide_eq_true_eq, Option.some.injEq, compareFinite_eq_iff, exists_eq_left',
        Sum.inr.injEq]
      exact eq_comm

theorem equal_symm {x y : Number} (h : x.equal y = true) : y.equal x = true := by
  obtain ⟨v, hx, hy⟩ := equal_iff.mp h
  exact equal_iff.mpr ⟨v, hy, hx⟩

theorem equal_trans {x y z : Number} (h : x.equal y = true) (h' : y.equal z = true) : x.equal z = true := by
  obtain ⟨v, hx, hy⟩ := equal_iff.mp h
  obtain ⟨w, hy', hz⟩ := equal_iff.mp h'
  obtain rfl : v = w := Option.some.inj (hy.symm.trans hy')
  exact equal_iff.mpr ⟨v, hx, hz⟩

end Floating.Number

/-! ## Names -/

namespace Label

theorem same_of_number {a b : Label} {x y : Floating.Number} (ha : a.number? = some x) (hb : b.number? = some y) :
    a.same b = true ↔ x = .nan ∧ y = .nan ∨ x.equal y = true := by
  unfold same
  split
  · cases ha
  · cases ha
  · simp only [ha, hb]
    cases x <;> cases y <;> simp [Floating.Number.equal, Floating.Number.compare?]

theorem same_cases {a b : Label} (h : a.same b = true) :
    (∃ s, a = .text s ∧ b = .text s) ∨ (a = .data .null ∧ b = .data .null) ∨
      ∃ x y, a.number? = some x ∧ b.number? = some y ∧ (x = .nan ∧ y = .nan ∨ x.equal y = true) := by
  unfold same at h
  split at h
  · exact .inl ⟨_, rfl, congrArg _ (of_decide_eq_true h).symm⟩
  · exact .inr (.inl ⟨rfl, rfl⟩)
  · split at h
    · next ha hb => exact .inr (.inr ⟨_, _, ha, hb, .inl ⟨rfl, rfl⟩⟩)
    · next ha hb => exact .inr (.inr ⟨_, _, ha, hb, .inr h⟩)
    · cases h

theorem same_symm {a b : Label} (h : a.same b = true) : b.same a = true := by
  rcases same_cases h with ⟨s, rfl, rfl⟩ | ⟨rfl, rfl⟩ | ⟨x, y, ha, hb, hxy⟩
  · exact h
  · rfl
  · exact (same_of_number hb ha).mpr (hxy.imp And.symm Floating.Number.equal_symm)

theorem same_trans {a b c : Label} (h : a.same b = true) (h' : b.same c = true) : a.same c = true := by
  rcases same_cases h with ⟨s, rfl, rfl⟩ | ⟨rfl, rfl⟩ | ⟨x, y, ha, hb, hxy⟩
  · exact h'
  · exact h'
  · rcases same_cases h' with ⟨s, rfl, rfl⟩ | ⟨rfl, rfl⟩ | ⟨y', z, hb', hc, hyz⟩
    · cases hb
    · cases hb
    · obtain rfl : y = y' := Option.some.inj (hb.symm.trans hb')
      refine (same_of_number ha hc).mpr ?_
      rcases hxy with ⟨rfl, rfl⟩ | hxy
      · rcases hyz with ⟨-, rfl⟩ | hyz
        · exact .inl ⟨rfl, rfl⟩
        · simp [Floating.Number.equal_iff, Floating.Number.value?] at hyz
      · rcases hyz with ⟨rfl, -⟩ | hyz
        · simp [Floating.Number.equal_iff, Floating.Number.value?] at hxy
        · exact .inr (Floating.Number.equal_trans hxy hyz)

end Label

/-! ## Values -/

namespace Attr

theorem agree_of_number {a b : Attr} {x y : Floating.Number} (ha : a.number? = some x) (hb : b.number? = some y) :
    a.agree b = x.equal y := by
  unfold agree
  split
  all_goals first | cases ha | simp only [ha, hb]

/-- Two values that agree are equal, or differ in a part for which there is an equality of its own. -/
theorem agree_cases {a b : Attr} (h : a.agree b = true) :
    a = b ∨ (∃ s t, a = symbol s ∧ b = symbol t ∧ s.same t = true) ∨
      (∃ s t, a = type s ∧ b = type t ∧ s.same t = true) ∨
      (∃ as bs, a = tuple as ∧ b = tuple bs ∧ allAgree as bs = true) ∨
      ∃ x y, a.number? = some x ∧ b.number? = some y ∧ x.equal y = true := by
  unfold agree at h
  split at h
  · exact .inl rfl
  · exact .inl (congrArg _ (of_decide_eq_true h))
  · exact .inr (.inl ⟨_, _, rfl, rfl, h⟩)
  · exact .inl (congrArg _ (of_decide_eq_true h))
  · exact .inl rfl
  · exact .inl (congrArg _ (of_decide_eq_true h))
  · exact .inr (.inr (.inl ⟨_, _, rfl, rfl, h⟩))
  · exact .inr (.inr (.inr (.inl ⟨_, _, rfl, rfl, h⟩)))
  · split at h
    · next ha hb => exact .inr (.inr (.inr (.inr ⟨_, _, ha, hb, h⟩)))
    · cases h

mutual

theorem agree_symm {a b : Attr} (h : a.agree b = true) : b.agree a = true := by
  rcases agree_cases h with rfl | ⟨s, t, rfl, rfl, hst⟩ | ⟨s, t, rfl, rfl, hst⟩ | ⟨as, bs, rfl, rfl, habs⟩ |
    ⟨x, y, hx, hy, hxy⟩
  · exact h
  · rw [agree]; exact Label.same_symm hst
  · rw [agree, Ty.same_iff]; exact (Ty.same_iff.mp hst).symm
  · rw [agree]; exact allAgree_symm habs
  · rw [agree_of_number hy hx]; exact Floating.Number.equal_symm hxy

theorem allAgree_symm {as bs : List Attr} (h : allAgree as bs = true) : allAgree bs as = true := by
  match as, bs with
  | [], [] => rfl
  | a :: as, b :: bs =>
    simp only [allAgree, Bool.and_eq_true] at h ⊢
    exact ⟨agree_symm h.1, allAgree_symm h.2⟩
  | [], _ :: _ => simp [allAgree] at h
  | _ :: _, [] => simp [allAgree] at h

end

mutual

theorem agree_trans {a b c : Attr} (h : a.agree b = true) (h' : b.agree c = true) : a.agree c = true := by
  rcases agree_cases h with rfl | ⟨s, t, rfl, rfl, hst⟩ | ⟨s, t, rfl, rfl, hst⟩ | ⟨as, bs, rfl, rfl, habs⟩ |
    ⟨x, y, hx, hy, hxy⟩
  · exact h'
  all_goals
    rcases agree_cases h' with rfl | ⟨u, v, hu, rfl, huv⟩ | ⟨u, v, hu, rfl, huv⟩ | ⟨cs, ds, hu, rfl, hcds⟩ |
      ⟨y', z, hy', hz, hyz⟩
  all_goals first | exact h | (cases hu; done) | cases hy' | skip
  · cases hu
    rw [agree]
    exact Label.same_trans hst huv
  · cases hu
    rw [agree, Ty.same_iff]
    exact (Ty.same_iff.mp hst).trans (Ty.same_iff.mp huv)
  · cases hu
    rw [agree]
    exact allAgree_trans habs hcds
  · subst hu; cases hy
  · subst hu; cases hy
  · subst hu; cases hy
  · obtain rfl : y = y' := Option.some.inj (hy.symm.trans hy')
    rw [agree_of_number hx hz]
    exact Floating.Number.equal_trans hxy hyz

theorem allAgree_trans {as bs cs : List Attr} (h : allAgree as bs = true) (h' : allAgree bs cs = true) :
    allAgree as cs = true := by
  match as, bs, cs with
  | [], [], _ => exact h'
  | a :: as, b :: bs, c :: cs =>
    simp only [allAgree, Bool.and_eq_true] at h h' ⊢
    exact ⟨agree_trans h.1 h'.1, allAgree_trans h.2 h'.2⟩
  | [], _ :: _, _ => simp [allAgree] at h
  | _ :: _, [], _ => simp [allAgree] at h
  | _, _ :: _, [] => simp [allAgree] at h'

end

end Attr

/-! ## Parameters -/

namespace Surplus

mutual

theorem agree_symm {p q : Surplus} (h : p.agree q = true) : q.agree p = true := by
  match p, q with
  | .value a, .value b => exact Attr.agree_symm h
  | .type t ps, .type u qs =>
    simp only [agree, Bool.and_eq_true, Ty.same_iff] at h ⊢
    exact ⟨h.1.symm, allAgree_symm h.2⟩
  | .value _, .type _ _ => simp [agree] at h
  | .type _ _, .value _ => simp [agree] at h

theorem allAgree_symm {ps qs : List Surplus} (h : allAgree ps qs = true) : allAgree qs ps = true := by
  match ps, qs with
  | [], [] => rfl
  | p :: ps, q :: qs =>
    simp only [allAgree, Bool.and_eq_true] at h ⊢
    exact ⟨agree_symm h.1, allAgree_symm h.2⟩
  | [], _ :: _ => simp [allAgree] at h
  | _ :: _, [] => simp [allAgree] at h

end

mutual

theorem agree_trans {p q r : Surplus} (h : p.agree q = true) (h' : q.agree r = true) : p.agree r = true := by
  match p, q, r with
  | .value a, .value b, .value c => exact Attr.agree_trans h h'
  | .type t ps, .type u qs, .type v rs =>
    simp only [agree, Bool.and_eq_true, Ty.same_iff] at h h' ⊢
    exact ⟨h.1.trans h'.1, allAgree_trans h.2 h'.2⟩
  | .value _, .type _ _, _ => simp [agree] at h
  | .type _ _, .value _, _ => simp [agree] at h
  | _, .value _, .type _ _ => simp [agree] at h'
  | _, .type _ _, .value _ => simp [agree] at h'

theorem allAgree_trans {ps qs rs : List Surplus} (h : allAgree ps qs = true) (h' : allAgree qs rs = true) :
    allAgree ps rs = true := by
  match ps, qs, rs with
  | [], [], _ => exact h'
  | p :: ps, q :: qs, r :: rs =>
    simp only [allAgree, Bool.and_eq_true] at h h' ⊢
    exact ⟨agree_trans h.1 h'.1, allAgree_trans h.2 h'.2⟩
  | [], _ :: _, _ => simp [allAgree] at h
  | _ :: _, [], _ => simp [allAgree] at h
  | _, _ :: _, [] => simp [allAgree] at h'

end

end Surplus

namespace StoredType

variable {a b c : StoredType}

theorem same_symm (h : a.same b = true) : b.same a = true := by
  simp only [same, Bool.and_eq_true, Ty.same_iff] at h ⊢
  exact ⟨h.1.symm, Surplus.allAgree_symm h.2⟩

theorem same_trans (h : a.same b = true) (h' : b.same c = true) : a.same c = true := by
  simp only [same, Bool.and_eq_true, Ty.same_iff] at h h' ⊢
  exact ⟨h.1.trans h'.1, Surplus.allAgree_trans h.2 h'.2⟩

end StoredType

end GateAsm
