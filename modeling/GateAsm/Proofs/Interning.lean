import Mathlib.Data.List.Pairwise
import GateAsm.Proofs.Answers
import GateAsm.Proofs.Written.Types
import GateAsm.Ty.Owned

/-!
# What a context keeps

A context keeps one type for each list of parameters (`TypeContext.Lawful`), and every type that it keeps is
one that its class makes (`Ty.Made`). Asking for such a type preserves both, and takes nothing away that was
kept (`TypeContext.Grows`). All that a context is ever asked for are types whose parts it has (`TypeContext.Takes`).
-/

namespace GateAsm

/-- A type as the classes make it. The width of an integer is an integer or a truth value, and that of a
float is any number but a truth value. -/
def Ty.Made : Ty → Prop
  | .integer w => w = ⟨1, .bool⟩ ∨ w.form = .int ∧ 1 ≤ w.value ∧ w.value ≤ 64
  | .float w => w.form ≠ .bool ∧ (w.value = 16 ∨ w.value = 32 ∨ w.value = 64)
  | .abstract => False
  | t => t.WellFormed

namespace Ty

section
variable {t : Ty}

theorem Made.wellFormed (h : t.Made) : t.WellFormed := by
  cases t with
  | integer w =>
    rcases h with rfl | h
    · exact ⟨by decide, by decide⟩
    · exact h.2
  | float w => exact h.2
  | abstract => trivial
  | _ => exact h

theorem Made.concrete (h : t.Made) : t ≠ .abstract := by
  rintro rfl
  exact h

theorem Readable.made (h : t.Readable) : t.Made := by
  have hw := h.wellFormed
  cases t with
  | integer w =>
    obtain ⟨n, f⟩ := w
    obtain rfl : f = .int := by cases f <;> first | rfl | exact nomatch h.plain
    exact .inr ⟨rfl, hw⟩
  | float w =>
    obtain ⟨n, f⟩ := w
    obtain rfl : f = .int := by cases f <;> first | rfl | exact nomatch h.plain
    exact ⟨nofun, hw⟩
  | abstract => exact absurd rfl h.concrete
  | _ => exact hw

theorem made_base (b : GateBase) : b.ty.Made := by cases b <;> trivial

theorem same_symm {a b : Ty} (h : a.same b = true) : b.same a = true := same_iff.mpr (same_iff.mp h).symm

theorem same_trans {a b c : Ty} (h : a.same b = true) (h' : b.same c = true) : a.same c = true :=
  same_iff.mpr ((same_iff.mp h).trans (same_iff.mp h'))

end

/-! ### Types from values -/

section
variable {a b : Attr} {t : Ty}

theorem made_ofIntegerWidth (h : ofIntegerWidth a = .ok t) : t.Made := by
  unfold ofIntegerWidth at h
  split at h
  · split at h
    · next hn => cases h; exact .inr ⟨rfl, by simp only [Width.ofNat]; omega⟩
    · cases h
  · cases h; exact .inl rfl
  · cases h

theorem tyClass_ofIntegerWidth (h : ofIntegerWidth a = .ok t) : t.tyClass = .integer := by
  unfold ofIntegerWidth at h
  split at h
  · split at h
    · cases h; rfl
    · cases h
  · cases h; rfl
  · cases h

theorem numberOf?_form {n : Int} {f : NumberForm} (h : numberOf? a = some (n, f)) : f ≠ .bool := by
  unfold numberOf? at h
  split at h <;> simp at h <;> grind

theorem made_ofFloatWidth (h : ofFloatWidth a = .ok t) : t.Made := by
  unfold ofFloatWidth at h
  split at h
  · next n f hf =>
    split at h
    · next hn =>
      cases h
      refine ⟨numberOf?_form hf, ?_⟩
      rcases hn with rfl | rfl | rfl
      · exact .inl rfl
      · exact .inr (.inl rfl)
      · exact .inr (.inr rfl)
    · cases h
  · cases h

theorem tyClass_ofFloatWidth (h : ofFloatWidth a = .ok t) : t.tyClass = .float := by
  unfold ofFloatWidth at h
  split at h
  · split at h
    · cases h; rfl
    · cases h
  · cases h

theorem made_ofRegisterSize (h : ofRegisterSize a = .ok t) : t.Made := by
  unfold ofRegisterSize at h
  split at h
  · cases h; trivial
  · split at h
    · next hn => cases h; simp only [Made, WellFormed]; omega
    · cases h
  · cases h

theorem tyClass_ofRegisterSize (h : ofRegisterSize a = .ok t) : t.tyClass = .register := by
  unfold ofRegisterSize at h
  split at h
  · cases h; rfl
  · split at h
    · cases h; rfl
    · cases h
  · cases h

theorem made_ofBaseAndCount (h : ofBaseAndCount a b = .ok t) : t.Made := by
  unfold ofBaseAndCount at h
  split at h
  · cases h
  · split at h
    · cases h; trivial
    · split at h
      · next hn => cases h; simp only [Made, WellFormed]; omega
      · cases h
    · cases h

theorem base_ofBaseAndCount (h : ofBaseAndCount a b = .ok t) :
    ∃ base n, a = .type base.ty ∧ t = .controlled base n := by
  have typed : ∀ {base : GateBase}, a.type?.bind base? = some base → a = .type base.ty := by
    intro base hbase
    obtain ⟨u, hu, hbase⟩ := Option.bind_eq_some_iff.mp hbase
    obtain rfl := base?_eq_some_iff.mp hbase
    cases a with
    | type u => exact congrArg Attr.type (Option.some.inj hu)
    | _ => cases hu
  unfold ofBaseAndCount at h
  split at h
  · cases h
  · next base hbase =>
    split at h
    · cases h; exact ⟨base, _, typed hbase, rfl⟩
    · split at h
      · cases h; exact ⟨base, _, typed hbase, rfl⟩
      · cases h
    · cases h

end

end Ty

namespace TyClass

variable {c : TyClass} {t : Ty}

theorem orRefuse_eq_ok {param : Attr} {x : Except TypeFault Ty} (h : orRefuse param x = .ok t) : x = .ok t := by
  unfold orRefuse at h
  split at h
  · exact congrArg _ (Except.ok.inj h)
  · cases h
  · split at h <;> cases h

/-- A class makes a type of the parameters. Only a class without parameters takes any. -/
inductive Makes : TyClass → List TypeParam → StoredType → Prop
  | integer {a : TypeParam} {t : Ty} : Ty.ofIntegerWidth a.value = .ok t → Makes integer [a] ⟨t, []⟩
  | float {a : TypeParam} {t : Ty} : Ty.ofFloatWidth a.value = .ok t → Makes float [a] ⟨t, []⟩
  | register {a : TypeParam} {t : Ty} : Ty.ofRegisterSize a.value = .ok t → Makes register [a] ⟨t, []⟩
  | controlled {a b : TypeParam} {t : Ty} :
    Ty.ofBaseAndCount a.value b.value = .ok t → Makes controlled [a, b] ⟨t, a.surplus⟩
  | plain {c : TyClass} {params : List TypeParam} {t : Ty} :
    c.plain? = some t → Makes c params ⟨t, params.map TypeParam.key⟩

theorem ofFloatWidth_of_makeFloat {a : Attr} (h : makeFloat a = .ok t) : Ty.ofFloatWidth a = .ok t := by
  unfold makeFloat at h
  split at h
  · split at h
    · split at h <;> cases h
    · cases h
    · cases h
  · exact orRefuse_eq_ok h

theorem makes_of_make {params : List TypeParam} {s : StoredType} (h : c.make params = .ok s) : c.Makes params s := by
  have made : ∀ {x : Except RequestFault Ty} {ps : List Surplus}, x.map (⟨·, ps⟩) = .ok s →
      ∃ t, x = .ok t ∧ s = ⟨t, ps⟩ := by
    intro x ps hx
    cases x with
    | error e => cases hx
    | ok t => exact ⟨t, rfl, (Except.ok.inj hx).symm⟩
  unfold make at h
  split at h
  · obtain ⟨t, ht, rfl⟩ := made h
    exact .integer (orRefuse_eq_ok ht)
  · obtain ⟨t, ht, rfl⟩ := made h
    exact .float (ofFloatWidth_of_makeFloat ht)
  · obtain ⟨t, ht, rfl⟩ := made h
    exact .register (orRefuse_eq_ok ht)
  · obtain ⟨t, ht, rfl⟩ := made h
    exact .controlled (orRefuse_eq_ok ht)
  · split at h
    · next ht => cases h; exact .plain ht
    · cases h

end TyClass

/-! ## Contexts -/

/-- A context as interning leaves it: no two of its types are the same, and all are made by their classes. -/
structure TypeContext.Lawful (c : TypeContext) : Prop where
  apart : c.stored.Pairwise fun a b => a.same b = false
  held : ∀ e ∈ c.stored, e.surplus = [] ∧ e.type.Made

/-- A stored type as its class makes it. A gate under control qubits has the surplus parameters of its base, and
other types with parameters have none. -/
structure StoredType.Formed (s : StoredType) : Prop where
  made : s.type.tyClass.arity ≠ 0 → s.type.Made
  surplus : s.type.tyClass.arity = 1 → s.surplus = []

structure TypeContext.Takes (c : TypeContext) (s : StoredType) : Prop extends s.Formed where
  base : ∀ b n, s.type = .controlled b n → ⟨b.ty, s.surplus⟩ ∈ c.stored

/-- The other context is what is left when the first one has been asked for some types, one after the other. -/
inductive TypeContext.Asked (c : TypeContext) : TypeContext → Prop
  | refl : Asked c c
  | store {d : TypeContext} {s : StoredType} : Asked c d → d.Takes s → Asked c (d.store s).2

structure TypeContext.Grows (c d : TypeContext) : Prop where
  name : d.name = c.name
  stored : c.stored <+: d.stored
  lawful : c.Lawful → d.Lawful
  asked : c.Asked d

namespace StoredType

variable {a b : StoredType}

theorem eq_of_surplus (h : a.surplus = []) : a = ⟨a.type, []⟩ := by
  cases a
  cases h
  rfl

theorem same_eq (ha : a.surplus = []) (hb : b.surplus = []) : a.same b = a.type.same b.type := by
  rw [eq_of_surplus ha, eq_of_surplus hb, same_plain]

end StoredType

namespace TypeContext

variable {c d e : TypeContext} {t : Ty} {s : StoredType}

theorem Asked.trans (h : c.Asked d) (h' : d.Asked e) : c.Asked e := by
  induction h' with
  | refl => exact h
  | store _ takes ih => exact ih.store takes

theorem Grows.refl (c : TypeContext) : c.Grows c := ⟨rfl, List.prefix_refl _, id, .refl⟩

theorem Grows.trans (h : c.Grows d) (h' : d.Grows e) : c.Grows e :=
  ⟨h'.name.trans h.name, h.stored.trans h'.stored, fun hc => h'.lawful (h.lawful hc), h.asked.trans h'.asked⟩

theorem Grows.mem (h : c.Grows d) (hs : s ∈ c.stored) : s ∈ d.stored := h.stored.subset hs

theorem lawful_empty (name : String) : (TypeContext.empty name).Lawful := ⟨.nil, nofun⟩

theorem lawful_default : TypeContext.default.Lawful := by
  constructor
  · decide
  · simp [TypeContext.default, Ty.Made, Ty.WellFormed, Width.ofNat]

theorem Lawful.unique (hc : c.Lawful) {a b : StoredType} (ha : a ∈ c.stored) (hb : b ∈ c.stored)
    (h : a.type.same b.type = true) : a = b := by
  by_contra hne
  -- the list says it for one order only, but equality does not depend on it
  have symmetric : c.stored.Pairwise fun a b => a.type.same b.type = false ∧ b.type.same a.type = false := by
    refine hc.apart.imp_of_mem fun {x y} hx hy hxy => ?_
    rw [StoredType.same_eq (hc.held x hx).1 (hc.held y hy).1] at hxy
    refine ⟨hxy, ?_⟩
    by_contra hyx
    rw [Ty.same_symm (by simpa using hyx)] at hxy
    cases hxy
  have : Std.Symm fun a b : StoredType => a.type.same b.type = false ∧ b.type.same a.type = false :=
    ⟨fun _ _ h => h.symm⟩
  have := (symmetric.forall ha hb hne).1
  rw [h] at this
  cases this

theorem Lawful.find?_of_mem (hc : c.Lawful) (hs : s ∈ c.stored) (h : s.type.same t = true) :
    c.find? ⟨t, []⟩ = some s := by
  have found : s.same ⟨t, []⟩ = true := by rw [StoredType.same_eq (hc.held s hs).1 rfl]; exact h
  cases hf : c.find? ⟨t, []⟩ with
  | none => exact absurd found (List.find?_eq_none.mp hf s hs)
  | some e =>
    have he := List.mem_of_find?_eq_some hf
    have same := List.find?_some hf
    rw [StoredType.same_eq (hc.held e he).1 rfl] at same
    rw [hc.unique he hs (Ty.same_trans same (Ty.same_symm h))]

theorem Lawful.intern_of_mem (hc : c.Lawful) (hs : s ∈ c.stored) (h : s.type.same t = true) :
    c.intern t = (s.type, c) := by
  unfold intern
  rw [store_of_find? (hc.find?_of_mem hs h)]

theorem takes_made (ht : t.Made) (hb : ∀ b n, t = .controlled b n → ⟨b.ty, []⟩ ∈ c.stored) : c.Takes ⟨t, []⟩ :=
  ⟨⟨fun _ => ht, fun _ => rfl⟩, hb⟩

theorem grows_intern (ht : t.Made) (hb : ∀ b n, t = .controlled b n → ⟨b.ty, []⟩ ∈ c.stored) :
    c.Grows (c.intern t).2 := by
  have asked : c.Asked (c.store ⟨t, []⟩).2 := .store .refl (takes_made ht hb)
  show c.Grows (c.store ⟨t, []⟩).2
  cases hf : c.find? ⟨t, []⟩ with
  | some kept => rw [store_of_find? hf]; exact .refl c
  | none =>
    rw [store_of_find?_none hf] at asked ⊢
    refine ⟨rfl, List.prefix_append _ _, fun hc => ⟨?_, ?_⟩, asked⟩
    · refine List.pairwise_append.mpr ⟨hc.apart, List.pairwise_singleton _ _, fun a ha b hb => ?_⟩
      obtain rfl := List.mem_singleton.mp hb
      simpa using List.find?_eq_none.mp hf a ha
    · intro e he
      rcases List.mem_append.mp he with he | he
      · exact hc.held e he
      · obtain rfl := List.mem_singleton.mp he
        exact ⟨rfl, ht⟩

theorem intern_mem (c : TypeContext) (t : Ty) : ⟨(c.intern t).1, []⟩ ∈ (c.intern t).2.stored := by
  have mem : (c.store ⟨t, []⟩).1 ∈ (c.store ⟨t, []⟩).2.stored := store_mem ..
  have surplus : (c.store ⟨t, []⟩).1.surplus = [] := by
    cases hf : c.find? ⟨t, []⟩ with
    | none => rw [store_of_find?_none hf]
    | some kept =>
      have found := List.find?_some hf
      simp only [StoredType.same, Bool.and_eq_true] at found
      rw [store_of_find? hf]
      cases hk : kept.surplus with
      | nil => rfl
      | cons p ps => simp [hk, Surplus.allAgree] at found
  rwa [StoredType.eq_of_surplus surplus] at mem

end TypeContext

/-! ## All contexts -/

namespace TypeContexts

variable {cs cs' : TypeContexts} {n : String} {d : TypeContext}

theorem name_get : (cs.get n).name = n := by
  unfold get
  split
  · next h => exact h.symm
  · cases hf : cs.named.find? (·.name = n) with
    | none => rfl
    | some c => simpa using List.find?_some hf

theorem get_set_self (cs : TypeContexts) (d : TypeContext) : (cs.set d).get d.name = d := by
  unfold set get
  by_cases h : d.name = cs.default.name
  · simp [h]
  · have fresh : (cs.named.filter (·.name != d.name)).find? (·.name = d.name) = none := by
      refine List.find?_eq_none.mpr fun c hc => ?_
      simpa using (List.mem_filter.mp hc).2
    simp [h, List.find?_append, fresh]

theorem get_set_of_ne (h : n ≠ d.name) : (cs.set d).get n = cs.get n := by
  unfold set get
  by_cases hd : d.name = cs.default.name
  · simp [hd, hd ▸ h]
  · have others : (cs.named.filter (·.name != d.name)).find? (·.name = n) = cs.named.find? (·.name = n) := by
      rw [List.find?_filter]
      congr 1
      funext c
      by_cases hc : c.name = n
      · simp [hc, h]
      · simp [hc]
    simp [hd, List.find?_append, others, h.symm]

def Grows (cs cs' : TypeContexts) : Prop :=
  cs'.default.name = cs.default.name ∧ ∀ n, (cs.get n).Grows (cs'.get n)

theorem Grows.refl (cs : TypeContexts) : cs.Grows cs := ⟨rfl, fun _ => .refl _⟩

theorem Grows.trans {cs'' : TypeContexts} (h : cs.Grows cs') (h' : cs'.Grows cs'') : cs.Grows cs'' :=
  ⟨h'.1.trans h.1, fun n => (h.2 n).trans (h'.2 n)⟩

theorem grows_set (h : (cs.get d.name).Grows d) : cs.Grows (cs.set d) := by
  constructor
  · unfold set
    split
    · assumption
    · rfl
  · intro n
    by_cases hn : n = d.name
    · rw [hn, get_set_self]; exact h
    · rw [get_set_of_ne hn]; exact .refl _

theorem get_default (cs : TypeContexts) : cs.get cs.default.name = cs.default := by simp [get]

/-- All contexts are as interning leaves them. -/
def Lawful (cs : TypeContexts) : Prop := ∀ n, (cs.get n).Lawful

theorem lawful_start : start.Lawful := by
  intro n
  unfold start get
  split
  · exact TypeContext.lawful_default
  · exact TypeContext.lawful_empty n

theorem Grows.lawful (h : cs.Grows cs') (hc : cs.Lawful) : cs'.Lawful := fun n => (h.2 n).lawful (hc n)

def Keeps (cs : TypeContexts) (t : OwnedType) : Prop := t.toStoredType ∈ (cs.get t.owner).stored

def Has (cs : TypeContexts) : TypeParam → Prop
  | .attr a => a.type? = none
  | .owned t => cs.Keeps t

theorem intern_eq_ok {c : TyClass} {ps : List TypeParam} {t : OwnedType} (h : cs.intern c ps n = .ok (t, cs')) :
    ∃ s, c.Makes ps s ∧ (∀ u, .owned u ∈ ps → u.owner = n) ∧ t = ⟨((cs.get n).store s).1, n⟩ ∧
      cs' = cs.set ((cs.get n).store s).2 := by
  unfold intern at h
  obtain ⟨s, hs, h⟩ := bind_eq_ok.mp h
  dsimp only at h
  split at h
  · cases h
  · next none_foreign =>
    split at h
    · cases h
    · cases h
      refine ⟨s, TyClass.makes_of_make hs, fun u hu => ?_, ?_, rfl⟩
      · have := List.findSome?_eq_none_iff.mp none_foreign _ hu
        by_contra other
        simp only [other, if_false] at this
        split at this <;> cases this
      · have : ((cs.get n).store s).2.name = n := by
          cases hf : (cs.get n).find? s with
          | none => rw [TypeContext.store_of_find?_none hf]; exact name_get
          | some kept => rw [TypeContext.store_of_find? hf]; exact name_get
        rw [this]

/-- What a class makes of parameters of one context is a type that the context may be asked for. -/
theorem takes_of_makes {c : TyClass} {ps : List TypeParam} {s : StoredType} (h : c.Makes ps s)
    (has : ∀ p ∈ ps, cs.Has p) (owned : ∀ u, .owned u ∈ ps → u.owner = n) : (cs.get n).Takes s := by
  cases h with
  | @integer a t h =>
    exact TypeContext.takes_made (Ty.made_ofIntegerWidth h) fun b n hb => by
      rw [hb] at h
      cases Ty.tyClass_ofIntegerWidth h
  | @float a t h =>
    exact TypeContext.takes_made (Ty.made_ofFloatWidth h) fun b n hb => by
      rw [hb] at h
      cases Ty.tyClass_ofFloatWidth h
  | @register a t h =>
    exact TypeContext.takes_made (Ty.made_ofRegisterSize h) fun b n hb => by
      rw [hb] at h
      cases Ty.tyClass_ofRegisterSize h
  | @controlled a b t h =>
    have made := Ty.made_ofBaseAndCount h
    obtain ⟨base, m, typed, rfl⟩ := Ty.base_ofBaseAndCount h
    refine ⟨⟨fun _ => made, nofun⟩, fun base' m' hb => ?_⟩
    cases hb
    have here := has a List.mem_cons_self
    cases a with
    | attr a =>
      obtain rfl : a = .type base.ty := typed
      cases here
    | owned u =>
      have kept : u.toStoredType ∈ (cs.get u.owner).stored := here
      have same : u.type = base.ty := Attr.type.inj typed
      rw [owned u List.mem_cons_self] at kept
      rwa [← same]
  | @plain _ _ t h =>
    have none : t.tyClass.arity = 0 := by
      rw [TyClass.tyClass_of_plain? h]
      cases c <;> first | rfl | cases h
    refine ⟨⟨fun some => absurd none some, fun one => ?_⟩, fun b m hb => ?_⟩
    · rw [none] at one
      cases one
    · obtain rfl : t = .controlled b m := hb
      cases none

theorem mem_complete {c : TyClass} {ps qs : List TypeParam} (h : c.complete ps = .ok qs) {p : TypeParam} (hp : p ∈ qs) :
    p ∈ ps ∨ p = .attr .none := by
  unfold TyClass.complete at h
  split at h
  · cases h
  · cases h; exact .inr (List.mem_singleton.mp hp)
  · cases h
    rcases List.mem_cons.mp hp with rfl | hp
    · exact .inl List.mem_cons_self
    · exact .inr (List.mem_singleton.mp hp)
  · cases h; exact .inl hp
  · cases h; exact .inl hp
  · cases h; exact .inl hp
  · cases h; exact .inl hp
  · split at h
    · cases h; exact .inl hp
    · cases h
  · cases h

theorem made_of_complete {c : TyClass} {ps qs : List TypeParam} {s : StoredType} (hq : c.complete ps = .ok qs)
    (h : c.Makes qs s) (hs : ∀ p ∈ qs, p.surplus = []) : s.surplus = [] ∧ s.type.Made := by
  cases h with
  | integer h => exact ⟨rfl, Ty.made_ofIntegerWidth h⟩
  | float h => exact ⟨rfl, Ty.made_ofFloatWidth h⟩
  | register h => exact ⟨rfl, Ty.made_ofRegisterSize h⟩
  | controlled h => exact ⟨hs _ List.mem_cons_self, Ty.made_ofBaseAndCount h⟩
  | @plain _ _ t h =>
    cases c with
    | quantum => cases hq
    | integer | float | register | controlled => cases h
    | index | qubit | gate1 | gate2 | circuit =>
      unfold TyClass.complete at hq
      cases ps with
      | nil => cases hq; cases h; exact ⟨rfl, trivial⟩
      | cons p ps => cases hq

theorem request_eq_ok {c : TyClass} {ps : List TypeParam} {context : Option String} {t : OwnedType}
    (has : ∀ p ∈ ps, cs.Has p) (h : cs.request c ps context = .ok (t, cs')) :
    ∃ rs qs, (rs = ps ∨ withoutContext c ps = .ok rs) ∧ c.complete rs = .ok qs ∧ (∀ p ∈ qs, cs.Has p) ∧
      cs.intern c qs t.owner = .ok (t, cs') := by
  have completed : ∀ {rs qs : List TypeParam}, (∀ p ∈ rs, cs.Has p) → c.complete rs = .ok qs → ∀ p ∈ qs, cs.Has p := by
    intro rs qs has hq p hp
    rcases mem_complete hq hp with hp | rfl
    · exact has p hp
    · rfl
  have dropped : ∀ {rs : List TypeParam}, withoutContext c ps = .ok rs → ∀ p ∈ rs, cs.Has p := by
    intro rs hr p hp
    unfold withoutContext at hr
    split at hr
    · cases hr; exact has p (List.mem_of_mem_take hp)
    · cases hr
    · cases hr; exact has p hp
  have owned : ∀ {qs : List TypeParam} {owner : String}, cs.intern c qs owner = .ok (t, cs') →
      cs.intern c qs t.owner = .ok (t, cs') := by
    intro qs owner h
    obtain ⟨s, -, -, rfl, -⟩ := intern_eq_ok h
    exact h
  unfold request at h
  split at h
  all_goals
    obtain ⟨rs, hr, h⟩ := bind_eq_ok.mp h
    obtain ⟨qs, hq, h⟩ := bind_eq_ok.mp h
  · have same : ps = rs := Except.ok.inj hr
    exact ⟨rs, qs, .inl same.symm, hq, completed (same ▸ has) hq, owned h⟩
  · exact ⟨rs, qs, .inr hr, hq, completed (dropped hr) hq, owned h⟩

end TypeContexts

end GateAsm
