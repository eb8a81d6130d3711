import GateAsm.Config.Basic
import Mathlib.Data.List.Nodup

/-!
# Kinds that are registered

The kinds of a configuration are registered one after the other, up to the first one whose mnemonic is taken by
another kind. What was registered in front of that one stays: a configuration that is refused leaves the registry
alone only if it has no new kind there (`Config.register_outcome`).
-/

namespace GateAsm

namespace Registry

/-- The mnemonic of the kind is free, or taken by the very same kind. -/
def Admits (r : Registry) (k : Kind) : Prop := r.kind? k.name = none ∨ r.kind? k.name = some k

instance (r : Registry) (k : Kind) : Decidable (r.Admits k) := by unfold Admits; infer_instance

def unknown (r : Registry) (ks : List Kind) : List Kind := ks.filter fun k => (r.kind? k.name).isNone

def extend (r : Registry) (ks : List Kind) : Registry := { r with kinds := r.kinds ++ ks.map fun k => (k.name, k) }

variable {r : Registry} {k : Kind} {ks : List Kind} {n : String}

@[simp]
theorem keywords_extend : (r.extend ks).keywords = r.keywords := rfl

@[simp]
theorem extend_nil : r.extend [] = r := by simp [extend]

theorem extend_cons : (r.extend [k]).extend ks = r.extend (k :: ks) := by simp [extend]

theorem extend_eq_self_iff : r.extend ks = r ↔ ks = [] := by
  constructor
  · intro same
    have kinds : r.kinds ++ ks.map (fun k => (k.name, k)) = r.kinds := congrArg Registry.kinds same
    simpa using kinds
  · intro none
    rw [none, extend_nil]

theorem kind?_extend : (r.extend ks).kind? n = (r.kind? n).or (ks.find? (·.name = n)) := by
  unfold kind? extend
  rw [List.find?_append, List.find?_map, Option.map_or]
  simp [Function.comp_def]

theorem kind?_extend_of_not_mem (h : n ∉ ks.map (·.name)) : (r.extend ks).kind? n = r.kind? n := by
  have other : ks.find? (·.name = n) = none := by
    refine List.find?_eq_none.mpr fun k hk same => h (List.mem_map.mpr ⟨k, hk, ?_⟩)
    simpa using same
  rw [kind?_extend, other, Option.or_none]

theorem kind?_extend_of_mem (distinct : (ks.map (·.name)).Nodup) (hk : k ∈ ks) (free : r.kind? k.name = none) :
    (r.extend ks).kind? k.name = some k := by
  rw [kind?_extend, free, Option.none_or]
  cases found : ks.find? (·.name = k.name) with
  | none => exact absurd (by simp) (List.find?_eq_none.mp found k hk)
  | some k' =>
    have same : k'.name = k.name := by simpa using List.find?_some found
    rw [List.inj_on_of_nodup_map distinct (List.mem_of_find?_eq_some found) hk same]

theorem setKind_of_free (free : r.kind? k.name = none) : r.setKind k = r.extend [k] := by
  have kept : r.kinds.filter (·.1 != k.name) = r.kinds := by
    refine List.filter_eq_self.mpr fun e he => ?_
    have apart := List.find?_eq_none.mp (Option.map_eq_none_iff.mp free) e he
    simpa using apart
  rw [setKind, kept]
  rfl

theorem unknown_eq_nil_iff : r.unknown ks = [] ↔ ∀ k ∈ ks, r.kind? k.name ≠ none := by
  simp [unknown, List.filter_eq_nil_iff]

theorem unknown_extend (h : k.name ∉ ks.map (·.name)) : (r.extend [k]).unknown ks = r.unknown ks := by
  refine List.filter_congr fun k' hk' => ?_
  have apart : k'.name ∉ [k].map (·.name) := by
    intro same
    exact h (List.mem_map.mpr ⟨k', hk', List.mem_singleton.mp same⟩)
  rw [kind?_extend_of_not_mem apart]

theorem Admits.extend (h : r.Admits k) (apart : k.name ∉ ks.map (·.name)) : (r.extend ks).Admits k := by
  unfold Admits
  rw [kind?_extend_of_not_mem apart]
  exact h

theorem kind?_extend_unknown (distinct : (ks.map (·.name)).Nodup) (admitted : ∀ k ∈ ks, r.Admits k) (hk : k ∈ ks) :
    (r.extend (r.unknown ks)).kind? k.name = some k := by
  rcases admitted k hk with free | known
  · have new : k ∈ r.unknown ks := List.mem_filter.mpr ⟨hk, by rw [free]; rfl⟩
    exact kind?_extend_of_mem (distinct.sublist (List.filter_sublist.map _)) new free
  · rw [kind?_extend, known, Option.some_or]

theorem kind?_extend_unknown_of_not_mem (h : n ∉ ks.map (·.name)) :
    (r.extend (r.unknown ks)).kind? n = r.kind? n := by
  refine kind?_extend_of_not_mem fun hn => h ?_
  exact (List.filter_sublist.map _).subset hn

end Registry

namespace Config

def announcements (k : Kind) : List Event := [.registered k.name, .configured k.name]

variable {r : Registry} {k : Kind} {ks rest : List Kind}

/-- Kinds that are admitted are registered, as far as they are new, and then come the others. -/
theorem registerKinds_append (distinct : (ks.map (·.name)).Nodup) (admitted : ∀ k ∈ ks, r.Admits k) :
    registerKinds false (ks ++ rest) r =
      let others := registerKinds false rest (r.extend (r.unknown ks))
      (others.1, others.2.1, (r.unknown ks).flatMap announcements ++ others.2.2) := by
  induction ks generalizing r with
  | nil => simp [Registry.unknown]
  | cons k ks ih =>
    obtain ⟨apart, distinct⟩ := List.nodup_cons.mp distinct
    obtain ⟨first, admitted⟩ := List.forall_mem_cons.mp admitted
    rw [List.cons_append, registerKinds]
    rcases first with free | known
    · have new : r.unknown (k :: ks) = k :: r.unknown ks := List.filter_cons_of_pos (by rw [free]; rfl)
      have later : ∀ k' ∈ ks, (r.extend [k]).Admits k' := fun k' hk' => by
        refine (admitted k' hk').extend fun same => apart (List.mem_map.mpr ⟨k', hk', ?_⟩)
        exact List.mem_singleton.mp same
      simp only [free, reduceCtorEq, if_false, Option.isSome_none, Bool.false_and, Bool.false_eq_true]
      rw [Registry.setKind_of_free free, ih distinct later, Registry.unknown_extend apart, Registry.extend_cons, new]
      rfl
    · have old : r.unknown (k :: ks) = r.unknown ks := List.filter_cons_of_neg (by rw [known]; simp)
      simp only [known, if_true]
      rw [ih distinct admitted, old]

theorem registerKinds_admitted (distinct : (ks.map (·.name)).Nodup) (admitted : ∀ k ∈ ks, r.Admits k) :
    registerKinds false ks r = (.ok (), r.extend (r.unknown ks), (r.unknown ks).flatMap announcements) := by
  have all := @registerKinds_append r ks [] distinct admitted
  rw [List.append_nil] at all
  rw [all]
  simp [registerKinds]

theorem registerKinds_taken (taken : ¬ r.Admits k) :
    registerKinds false (k :: rest) r = (.error (.alreadyRegistered k.name), r, []) := by
  obtain ⟨used, other⟩ := not_or.mp taken
  rw [registerKinds]
  simp only [other, if_false, Option.isSome_iff_ne_none.mpr used, Bool.not_false, Bool.and_self, if_true]

theorem exists_firstTaken (h : ∃ k ∈ ks, ¬ r.Admits k) :
    ∃ front k rest, ks = front ++ k :: rest ∧ (∀ k' ∈ front, r.Admits k') ∧ ¬ r.Admits k := by
  have taken : (ks.find? fun k => !decide (r.Admits k)).isSome = true := by simpa using h
  obtain ⟨k, found⟩ := Option.isSome_iff_exists.mp taken
  obtain ⟨taken, front, rest, split, admitted⟩ := List.find?_eq_some_iff_append.mp found
  exact ⟨front, k, rest, split, by simpa using admitted, by simpa using taken⟩

/-- **Registering a configuration.** If no mnemonic is taken by another kind, all kinds are there afterwards, everything
else is as before, and doing it again succeeds and changes nothing. Else the first kind whose mnemonic is taken is
refused, and exactly the kinds in front of it have been registered; so a refusal leaves the registry alone if and only
if all of these were there already. -/
theorem register_outcome (c : Config) (r : Registry) (distinct : (c.kinds.map (·.name)).Nodup) :
    ((∀ k ∈ c.kinds, r.Admits k) →
      ∃ r', c.register false r = (.ok (), r', (r.unknown c.kinds).flatMap announcements) ∧
        (∀ k ∈ c.kinds, r'.kind? k.name = some k) ∧ (∀ n, n ∉ c.kinds.map (·.name) → r'.kind? n = r.kind? n) ∧
        r'.keywords = r.keywords ∧ c.register false r' = (.ok (), r', [])) ∧
    ((∃ k ∈ c.kinds, ¬ r.Admits k) →
      ∃ front k rest r', c.kinds = front ++ k :: rest ∧ (∀ k' ∈ front, r.Admits k') ∧ ¬ r.Admits k ∧
        c.register false r =
          (.error (.alreadyRegistered k.name), r', (r.unknown front).flatMap announcements) ∧
        (∀ k' ∈ front, r'.kind? k'.name = some k') ∧ (∀ n, n ∉ front.map (·.name) → r'.kind? n = r.kind? n) ∧
        r'.keywords = r.keywords ∧ (r' = r ↔ ∀ k' ∈ front, r.kind? k'.name = some k')) := by
  constructor
  · intro admitted
    have found : ∀ k ∈ c.kinds, (r.extend (r.unknown c.kinds)).kind? k.name = some k :=
      fun k hk => Registry.kind?_extend_unknown distinct admitted hk
    have nothing : (r.extend (r.unknown c.kinds)).unknown c.kinds = [] :=
      Registry.unknown_eq_nil_iff.mpr fun k hk free => by rw [found k hk] at free; cases free
    have again := registerKinds_admitted distinct fun k hk => .inr (found k hk)
    rw [nothing, Registry.extend_nil] at again
    exact ⟨_, registerKinds_admitted distinct admitted, found,
      fun n hn => Registry.kind?_extend_unknown_of_not_mem hn, rfl, again⟩
  · intro conflict
    obtain ⟨front, k, rest, split, admitted, taken⟩ := exists_firstTaken conflict
    rw [split, List.map_append] at distinct
    obtain ⟨distinct, -, apart⟩ := List.nodup_append.mp distinct
    -- the kinds in front have other mnemonics, so that the one of this kind is still taken
    have still : ¬ (r.extend (r.unknown front)).Admits k := by
      have same : (r.extend (r.unknown front)).kind? k.name = r.kind? k.name :=
        Registry.kind?_extend_unknown_of_not_mem fun hk => apart _ hk _ List.mem_cons_self rfl
      unfold Registry.Admits at taken ⊢
      rwa [same]
    have refused := @registerKinds_append r front (k :: rest) distinct admitted
    rw [registerKinds_taken still] at refused
    refine ⟨front, k, rest, _, split, admitted, taken, ?_,
      fun k' hk' => Registry.kind?_extend_unknown distinct admitted hk',
      fun n hn => Registry.kind?_extend_unknown_of_not_mem hn, rfl, ?_⟩
    · rw [register, split, refused]
      simp
    · rw [Registry.extend_eq_self_iff, Registry.unknown_eq_nil_iff]
      exact forall₂_congr fun k' hk' => ⟨fun used => (admitted k' hk').resolve_left used,
        fun known free => by rw [known] at free; cases free⟩

def halfTaken : Config :=
  ⟨false, [⟨"x.a", [⟨"q", false, false⟩], false, false, ""⟩, ⟨"quantum.h", [⟨"q", false, false⟩], false, false, ""⟩]⟩

/-- The second kind is refused, and the first one stays; without the second one, all is well. -/
theorem register_outcome_halfTaken :
    (halfTaken.kinds.map (·.name)).Nodup ∧
      (∃ r' events, halfTaken.register false .standard = (.error (.alreadyRegistered "quantum.h"), r', events) ∧
        Registry.standard.kind? "x.a" = none ∧ r'.kind? "x.a" = some ⟨"x.a", [⟨"q", false, false⟩], false, false, ""⟩) ∧
      ∃ r', sample.register false .standard =
          (.ok (), r', [.registered "quantum.ccx", .configured "quantum.ccx"]) ∧
        sample.register false r' = (.ok (), r', []) := by
  have free : Registry.standard.kind? "x.a" = none := by decide +kernel
  refine ⟨by decide, ?_, ?_⟩
  · obtain ⟨-, refuses⟩ := register_outcome halfTaken .standard (by decide)
    obtain ⟨front, k, rest, r', split, admitted, taken, refused, found, -⟩ :=
      refuses ⟨_, List.mem_cons_of_mem _ List.mem_cons_self, by decide +kernel⟩
    -- the first kind is admitted, so just it stands in front
    rcases front with _ | ⟨a, _ | ⟨b, front⟩⟩
    · cases split
      exact absurd (Or.inl free) taken
    · cases split
      exact ⟨r', _, refused, free, found _ List.mem_cons_self⟩
    · have long := congrArg List.length split
      simp [halfTaken] at long
  · obtain ⟨registers, -⟩ := register_outcome sample .standard (by decide)
    obtain ⟨r', registered, -, -, -, again⟩ := registers (by decide +kernel)
    exact ⟨r', registered, again⟩

end Config

end GateAsm
