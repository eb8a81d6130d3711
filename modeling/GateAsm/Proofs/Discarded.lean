import GateAsm.Proofs.UseDef
import Mathlib.Data.List.Pairwise

/-!
# Inputs that are discarded

Discarding takes inputs out of scope one after the other, and stops at the first one that is in use. The list of
inputs is cut only behind the last one. So the scope and the list stay in step if no input to be discarded is in
use, or the first one already is; else the inputs in front of the one in use stay in the list, but are not
found any more (`Block.discardInputs_outcome`).
-/

namespace GateAsm.Block

def withoutNames (b : Block) (ids : List Nat) : Block :=
  { b with scope := b.scope.filter fun e => !ids.contains e.2 }

/-- Values stand in scope under their own names, and no two under the same. -/
structure Keyed (b : Block) : Prop where
  wellScoped : b.WellScoped
  names : b.scope.Pairwise fun e e' => e.1.same e'.1 = false

/-- The values are in scope, each once, under names that may stand in a text. -/
structure Discardable (b : Block) (ids : List Nat) : Prop where
  inScope : ∀ id ∈ ids, b.InScope id
  visible : ∀ id ∈ ids, ∃ n, b.nameOf id = .text n ∧ Visible n
  distinct : ids.Nodup

section
variable {b : Block} {id : Nat} {ids front rest : List Nat} {n : String}

theorem withoutNames_nil (b : Block) : b.withoutNames [] = b := by
  have all : b.scope.filter (fun e => !([] : List Nat).contains e.2) = b.scope := List.filter_eq_self.mpr fun _ _ => rfl
  rw [withoutNames, all]

theorem withoutNames_cons (b : Block) (id : Nat) (ids : List Nat) :
    (b.withoutNames [id]).withoutNames ids = b.withoutNames (id :: ids) := by
  simp only [withoutNames, List.filter_filter, mk.injEq, true_and, and_true]
  refine List.filter_congr fun e _ => ?_
  rw [List.contains_cons, List.contains_cons, List.contains_nil, Bool.or_false, Bool.not_or, Bool.and_comm]

theorem inScope_withoutNames : (b.withoutNames ids).InScope id ↔ b.InScope id ∧ id ∉ ids := by
  simp only [InScope, withoutNames, List.mem_map, List.mem_filter, Bool.not_eq_true', List.contains_eq_mem,
    decide_eq_false_iff_not]
  constructor
  · rintro ⟨e, ⟨he, hout⟩, rfl⟩
    exact ⟨⟨e, he, rfl⟩, hout⟩
  · rintro ⟨⟨e, he, rfl⟩, hout⟩
    exact ⟨e, ⟨he, hout⟩, rfl⟩

theorem withoutNames_eq_self_iff (hin : ∀ id ∈ ids, b.InScope id) : b.withoutNames ids = b ↔ ids = [] := by
  constructor
  · intro same
    refine List.eq_nil_iff_forall_not_mem.mpr fun id hid => ?_
    have kept : (b.withoutNames ids).InScope id := by rw [same]; exact hin id hid
    exact (inScope_withoutNames.mp kept).2 hid
  · rintro rfl
    exact withoutNames_nil b

theorem UseDef.keyed {pending : List Nat} (h : b.UseDef pending) : b.Keyed := ⟨h.wellScoped, h.names⟩

theorem Keyed.withoutNames (h : b.Keyed) (ids : List Nat) : (b.withoutNames ids).Keyed :=
  ⟨fun e he => h.wellScoped e (List.mem_filter.mp he).1, h.names.filter _⟩

theorem Discardable.tail (h : b.Discardable (id :: ids)) : (b.withoutNames [id]).Discardable ids := by
  obtain ⟨hnot, distinct⟩ := List.nodup_cons.mp h.distinct
  refine ⟨fun x hx => ?_, fun x hx => h.visible x (List.mem_cons_of_mem _ hx), distinct⟩
  refine inScope_withoutNames.mpr ⟨h.inScope x (List.mem_cons_of_mem _ hx), fun hmem => ?_⟩
  rw [List.mem_singleton.mp hmem] at hx
  exact hnot hx

theorem Keyed.same_iff (h : b.Keyed) (hin : b.InScope id) (hn : b.nameOf id = .text n) {e : Label × Nat}
    (he : e ∈ b.scope) : e.1.same (.text n) = true ↔ e.2 = id := by
  obtain ⟨own, hown, rfl⟩ := List.mem_map.mp hin
  have named : own.1 = .text n := (h.wellScoped own hown).2.symm.trans hn
  constructor
  · intro same
    -- two entries under one name would be apart and the same
    have apart : b.scope.Pairwise fun x y => ¬ (x.1 = .text n ∧ y.1 = .text n) := by
      refine h.names.imp fun {x y} differ both => ?_
      rw [both.1, both.2, same_text_iff.mpr rfl] at differ
      cases differ
    have once : ∀ ⦃x⦄, x ∈ b.scope → ∀ ⦃y⦄, y ∈ b.scope → x.1 = .text n ∧ y.1 = .text n → x.2 = y.2 :=
      List.Pairwise.forall_of_forall_of_flip (fun _ _ _ => rfl) (apart.imp fun no both => absurd both no)
        (apart.imp fun no both => absurd both.symm no)
    exact once he hown ⟨same_text_iff.mp same, named⟩
  · intro same
    rw [same_text_iff, ← (h.wellScoped e he).2, same, hn]

theorem Keyed.inScope?_eq (h : b.Keyed) (hin : b.InScope id) (hn : b.nameOf id = .text n) :
    b.inScope? (.text n) = some id := by
  obtain ⟨own, hown, rfl⟩ := List.mem_map.mp hin
  cases found : b.scope.find? (·.1.same (.text n)) with
  | none =>
    exact absurd ((h.same_iff hin hn hown).mpr rfl) (List.find?_eq_none.mp found own hown)
  | some e =>
    have same : e.1.same (.text n) = true := List.find?_some (p := fun x : Label × Nat => x.1.same (.text n)) found
    rw [inScope?, found, Option.map_some, (h.same_iff hin hn (List.mem_of_find?_eq_some found)).mp same]

theorem Keyed.lookup_withoutNames (h : b.Keyed) (hin : b.InScope id) (hn : b.nameOf id = .text n) (hv : Visible n) :
    (b.withoutNames ids).lookup n = if id ∈ ids then none else some id := by
  rw [lookup_eq hv]
  split
  · next hid =>
    simp only [inScope?, Option.map_eq_none_iff, List.find?_eq_none]
    intro e he same
    obtain ⟨hscope, hout⟩ := List.mem_filter.mp he
    rw [(h.same_iff hin hn hscope).mp same] at hout
    simp [hid] at hout
  · next hid =>
    exact (h.withoutNames ids).inScope?_eq (inScope_withoutNames.mpr ⟨hin, hid⟩) hn

/-! ## Taking inputs out of scope -/

theorem isUnused_iff : b.isUnused id = true ↔ b.usesOf id = [] := by
  unfold isUnused usesOf
  cases b.value? id with
  | none => simp
  | some v => simp

theorem removeInputs_cons (h : b.Keyed) (hn : b.Discardable (id :: ids)) (hu : b.usesOf id = []) :
    b.removeInputs (id :: ids) = (b.withoutNames [id]).removeInputs ids := by
  have hin := hn.inScope id List.mem_cons_self
  obtain ⟨n, named, -⟩ := hn.visible id List.mem_cons_self
  have unused : ((b.value? id).map (·.uses.isEmpty)).getD true = true := isUnused_iff.mpr hu
  have kept : b.scope.filter (fun e => !e.1.same (.text n)) = b.scope.filter fun e => !List.contains [id] e.2 := by
    refine List.filter_congr fun e he => ?_
    rw [Bool.eq_iff_iff, Bool.not_eq_true', Bool.not_eq_true', ← Bool.not_eq_true, ← Bool.not_eq_true,
      h.same_iff hin named he]
    simp
  rw [removeInputs]
  simp only [unused, named, h.inScope?_eq hin named, kept, Bool.true_eq_false, if_false, Option.isNone_some]
  rfl

theorem removeInputs_append (h : b.Keyed) (hn : b.Discardable (front ++ rest)) (hu : ∀ i ∈ front, b.usesOf i = []) :
    b.removeInputs (front ++ rest) = (b.withoutNames front).removeInputs rest := by
  induction front generalizing b with
  | nil => rw [List.nil_append, withoutNames_nil]
  | cons id front ih =>
    have first : b.removeInputs (id :: (front ++ rest)) = _ := removeInputs_cons h hn (hu id List.mem_cons_self)
    have others := ih (h.withoutNames [id]) hn.tail fun i hi => hu i (List.mem_cons_of_mem _ hi)
    rw [List.cons_append, first, others, withoutNames_cons]

theorem removeInputs_used (hu : b.usesOf id ≠ []) :
    b.removeInputs (id :: rest) = (.error (.inUse (b.nameOf id).display), b) := by
  have used : ((b.value? id).map (·.uses.isEmpty)).getD true = false := Bool.eq_false_iff.mpr (mt isUnused_iff.mp hu)
  rw [removeInputs]
  simp only [used, if_true]

end

theorem exists_firstUsed {b : Block} {ids : List Nat} (h : ∃ id ∈ ids, b.usesOf id ≠ []) :
    ∃ front id rest, ids = front ++ id :: rest ∧ (∀ i ∈ front, b.usesOf i = []) ∧ b.usesOf id ≠ [] := by
  induction ids with
  | nil => simp at h
  | cons id ids ih =>
    by_cases hu : b.usesOf id = []
    · obtain ⟨x, hx, hxu⟩ := h
      have later : x ∈ ids := (List.mem_cons.mp hx).resolve_left fun he => hxu (he ▸ hu)
      obtain ⟨front, y, rest, rfl, hfront, hy⟩ := ih ⟨x, later, hxu⟩
      exact ⟨id :: front, y, rest, rfl, List.forall_mem_cons.mpr ⟨hu, hfront⟩, hy⟩
    · exact ⟨[], id, ids, rfl, nofun, hu⟩

theorem UseDef.discardable {b : Block} (h : b.UseDef []) (hn : ∀ id ∈ b.inputs, ∃ n, b.nameOf id = .text n ∧ Visible n)
    (start : Nat) : b.Discardable (b.inputs.drop start) where
  inScope id hid := (h.origin id).mpr (by simp [List.mem_of_mem_drop hid])
  visible id hid := hn id (List.mem_of_mem_drop hid)
  distinct := by
    have distinct := h.distinct
    rw [List.append_nil] at distinct
    exact (List.nodup_append.mp distinct).1.sublist (List.drop_sublist _ _)

theorem discardInputs_natCast (b : Block) (start : Nat) :
    b.discardInputs start = match b.removeInputs (b.inputs.drop start) with
      | (.error e, b) => (.error e, b)
      | (.ok (), b') => (.ok (), { b' with inputs := b'.inputs.take (min start b.inputs.length) }) := by
  have dropped : b.inputs.drop (min start b.inputs.length) = b.inputs.drop start := by
    rcases Nat.le_total start b.inputs.length with hle | hle
    · rw [Nat.min_eq_left hle]
    · rw [Nat.min_eq_right hle, List.drop_length, List.drop_eq_nil_of_le hle]
  rw [← dropped, ← boundIn_natCast]
  rfl

/-- **Discarding inputs.** If no input behind the first `start` is in use, exactly these leave the scope and the list
of inputs, and nothing else changes. If one of them is in use, the first such one is refused; the list of inputs and
all else is as before, except that the inputs between `start` and it are out of scope: they stay in the list, but
are not found under their names. So a refusal leaves the block alone exactly if the first input behind `start` is
already the one in use. -/
theorem discardInputs_outcome {b : Block} (h : b.UseDef [])
    (hn : ∀ id ∈ b.inputs, ∃ n, b.nameOf id = .text n ∧ Visible n) (start : Nat) :
    ((∀ id ∈ b.inputs.drop start, b.usesOf id = []) →
      b.discardInputs start = (.ok (), { b with
        inputs := b.inputs.take start, scope := b.scope.filter fun e => !(b.inputs.drop start).contains e.2 })) ∧
    ((∃ id ∈ b.inputs.drop start, b.usesOf id ≠ []) →
      ∃ front id rest b', b.inputs.drop start = front ++ id :: rest ∧ (∀ i ∈ front, b.usesOf i = []) ∧
      b.usesOf id ≠ [] ∧
        b.discardInputs start = (.error (.inUse (b.nameOf id).display), b') ∧
        b' = { b with scope := b.scope.filter fun e => !front.contains e.2 } ∧ (b' = b ↔ front = []) ∧
        ∀ i ∈ b.inputs, ∀ n, b.nameOf i = .text n → b'.lookup n = if i ∈ front then none else some i) := by
  have named := h.discardable hn start
  constructor
  · intro hu
    rw [← List.append_nil (b.inputs.drop start)] at named
    have removed := removeInputs_append h.keyed named hu
    rw [List.append_nil] at removed
    rw [discardInputs_natCast, removed, List.take_eq_take_min]
    rfl
  · intro hu
    obtain ⟨front, id, rest, hids, hfront, hid⟩ := exists_firstUsed hu
    rw [hids] at named
    have refused : (b.withoutNames front).removeInputs (id :: rest) = (.error (.inUse (b.nameOf id).display), _) :=
      removeInputs_used hid
    refine ⟨front, id, rest, b.withoutNames front, hids, hfront, hid, ?_, rfl, ?_, ?_⟩
    · rw [discardInputs_natCast, hids, removeInputs_append h.keyed named hfront, refused]
    · exact withoutNames_eq_self_iff fun i hi => named.inScope i (List.mem_append_left _ hi)
    · intro i hi n hname
      obtain ⟨m, hm, visible⟩ := hn i hi
      obtain rfl : n = m := Label.text.inj (hname.symm.trans hm)
      exact h.keyed.lookup_withoutNames ((h.origin i).mpr (by simp [hi])) hname visible

def threeInputs : Block := ((empty.withInput "%a" .qubit).withInput "%b" .qubit).withInput "%c" .qubit

def secondInUse : Block := (threeInputs.createOperation ⟨.text "x", [some 1], [], []⟩ none).2

theorem useDef_secondInUse : secondInUse.UseDef [] := by
  have inputs : threeInputs.UseDef [] :=
    ((UseDef.empty.addInput (addInput_text (by decide))).addInput (addInput_text (by decide))).addInput
      (addInput_text (by decide))
  have created : threeInputs.createOperation ⟨.text "x", [some 1], [], []⟩ none = (.ok 0, secondInUse) := rfl
  refine inputs.createOperation (fun id hid => ?_) created
  obtain rfl : id = 1 := Option.some.inj (List.mem_singleton.mp hid)
  exact List.mem_map.mpr ⟨(.text "%b", 1), by simp [threeInputs, withInput, enter, empty], rfl⟩

/-- The third input alone can be discarded; where all three are to be discarded, the first is lost from the scope. -/
theorem discardInputs_outcome_secondInUse :
    secondInUse.UseDef [] ∧ (∀ id ∈ secondInUse.inputs, ∃ n, secondInUse.nameOf id = .text n ∧ Visible n) ∧
      (∃ b', secondInUse.discardInputs 2 = (.ok (), b') ∧ b'.inputs = [0, 1]) ∧
      ∃ b', secondInUse.discardInputs 0 = (.error (.inUse "%b"), b') ∧ b'.inputs = [0, 1, 2] ∧
        b'.lookup "%a" = none ∧ b'.lookup "%b" = some 1 := by
  have visible : ∀ id ∈ secondInUse.inputs, ∃ n, secondInUse.nameOf id = .text n ∧ Visible n := by
    intro id hid
    have cases : id = 0 ∨ id = 1 ∨ id = 2 := by simpa using show id ∈ [0, 1, 2] from hid
    rcases cases with rfl | rfl | rfl
    · exact ⟨"%a", rfl, visible_iff.mpr (by decide)⟩
    · exact ⟨"%b", rfl, visible_iff.mpr (by decide)⟩
    · exact ⟨"%c", rfl, visible_iff.mpr (by decide)⟩
  refine ⟨useDef_secondInUse, visible, ?_, ?_⟩
  · obtain ⟨discards, -⟩ := discardInputs_outcome useDef_secondInUse visible 2
    refine ⟨_, discards fun id hid => ?_, rfl⟩
    obtain rfl : id = 2 := by simpa using show id ∈ [2] from hid
    rfl
  · obtain ⟨-, refuses⟩ := discardInputs_outcome useDef_secondInUse visible 0
    obtain ⟨front, id, rest, b', hids, hfront, hid, refused, rfl, -, found⟩ :=
      refuses ⟨1, List.mem_cons_of_mem _ List.mem_cons_self, List.cons_ne_nil _ _⟩
    have inputs : [0, 1, 2] = front ++ id :: rest := hids
    -- only the second input is in use, so just the first stands in front of it
    rcases front with _ | ⟨a, _ | ⟨c, front⟩⟩
    · cases inputs
      exact absurd rfl hid
    · cases inputs
      exact ⟨_, refused, rfl, found 0 List.mem_cons_self "%a" rfl,
        found 1 (List.mem_cons_of_mem _ List.mem_cons_self) "%b" rfl⟩
    · obtain ⟨-, inputs⟩ := List.cons.inj inputs
      obtain ⟨rfl, -⟩ := List.cons.inj inputs
      exact absurd (hfront 1 (List.mem_cons_of_mem _ List.mem_cons_self)) (List.cons_ne_nil _ _)

end GateAsm.Block
