import GateAsm.Proofs.Legal
import Mathlib.Data.List.Basic

/-!
# Verdicts

`Kind.verify` accepts exactly the operations that are the flattening of a legal assignment
(`Kind.verify_iff`), and `Kind.slotOperands` gives the assignment back. For a call the arguments are made
from its main operands and the accessors that its tag holds.
-/

namespace GateAsm

namespace Kind

variable {op : Operation} {b : Block}

/-! ## Calls -/

theorem argumentAccessors?_iff {a : Option Attr} {arrays : List Accessors} :
    argumentAccessors? a = some arrays ↔ a = some (.tuple (arrays.map .accessors)) := by
  unfold argumentAccessors?
  split
  · next items =>
    simp only [Option.some.injEq, Attr.tuple.injEq]
    induction items generalizing arrays with
    | nil => cases arrays <;> simp
    | cons item items ih =>
      rw [List.mapM_cons]
      cases arrays with
      | nil => cases item <;> simp [Option.bind_eq_some_iff]
      | cons array arrays =>
        cases item with
        | accessors a =>
          simp only [List.map_cons, List.cons.injEq, Attr.accessors.injEq, ← ih]
          simp [Option.bind_eq_some_iff]
          exact and_comm
        | _ => simp
  · next h =>
    refine ⟨nofun, ?_⟩
    rintro rfl
    exact absurd rfl (h _)

def argumentGroup (x : ArgumentChoice × Nat) : SlotOperands :=
  ⟨s!"arg{x.2}", some x.1.main, x.1.references, .accessors x.1.accessors⟩

def argumentChoices (operands : List Nat) : List Nat → List Accessors → (pos : Nat) → List ArgumentChoice
  | id :: ids, a :: arrays, pos =>
    ⟨id, a, (operands.drop pos).take a.dynamicCount⟩ :: argumentChoices operands ids arrays (pos + a.dynamicCount)
  | _, _, _ => []

theorem argumentGroups_eq {items : List Attr} {i pos : Nat} {ids : List Nat} {arrays : List Accessors}
    (hlen : ids.length = arrays.length) (hitems : items.drop i = arrays.map .accessors) :
    argumentGroups op (.tuple items) i ids pos =
      .ok (((argumentChoices op.operands ids arrays pos).zipIdx i).map argumentGroup) := by
  induction ids generalizing i pos arrays with
  | nil =>
    obtain rfl := List.length_eq_zero_iff.mp hlen.symm
    rfl
  | cons id ids ih =>
    obtain ⟨a, arrays, rfl⟩ := List.exists_cons_of_length_eq_add_one hlen.symm
    have hi : i < items.length := by
      have := congrArg List.length hitems
      simp at this
      omega
    rw [List.drop_eq_getElem_cons hi, List.map_cons] at hitems
    obtain ⟨first, rest⟩ := List.cons.inj hitems
    have length : (Attr.tuple items).length = .ok items.length := rfl
    have item : (Attr.tuple items).item i = .ok (.accessors a) := by
      simp only [Attr.item, Attr.items?, List.getElem?_eq_getElem hi, first]
    have dynamic : (Attr.accessors a).dynamicCount = .ok a.dynamicCount := rfl
    have tail := @ih (i + 1) (pos + a.dynamicCount) arrays (Nat.succ.inj hlen) rest
    rw [argumentGroups, length, Readback.ofAttr_ok, ok_bind, if_pos hi, item, Readback.ofAttr_ok, ok_bind]
    dsimp only
    rw [dynamic, Readback.ofAttr_ok, ok_bind, ← Int.natCast_add, tail, ok_bind, pure_eq_ok, Int.natCast_add,
      window_natCast]
    rfl

/-- The arguments are legal if and only if their groups comply with the rules. -/
theorem checkArguments_iff {xs : List (ArgumentChoice × Nat)} :
    checkArguments b op (xs.map argumentGroup) = .ok () ↔ ∀ x ∈ xs, x.1.Legal b := by
  induction xs with
  | nil => exact ⟨fun _ => nofun, fun _ => rfl⟩
  | cons x xs ih =>
    rw [List.map_cons, checkArguments, bind_eq_ok, List.forall_mem_cons, ← ih]
    constructor
    · rintro ⟨_, h, rest⟩
      obtain ⟨array, harray, count, index⟩ := checkReferences_iff.mp h
      cases harray
      exact ⟨⟨count, index⟩, rest⟩
    · rintro ⟨h, rest⟩
      exact ⟨(), checkReferences_iff.mpr ⟨_, rfl, h.count, h.index⟩, rest⟩

theorem argumentChoices_parts {operands ids : List Nat} {arrays : List Accessors} {pos : Nat}
    (hlen : ids.length = arrays.length) :
    (argumentChoices operands ids arrays pos).map (·.main) = ids ∧
      (argumentChoices operands ids arrays pos).map (·.accessors) = arrays ∧
      (argumentChoices operands ids arrays pos).flatMap (·.references) =
        (operands.drop pos).take (arrays.map Accessors.dynamicCount).sum := by
  induction ids generalizing arrays pos with
  | nil =>
    obtain rfl := List.length_eq_zero_iff.mp hlen.symm
    exact ⟨rfl, rfl, by simp [argumentChoices]⟩
  | cons id ids ih =>
    obtain ⟨a, arrays, rfl⟩ := List.exists_cons_of_length_eq_add_one hlen.symm
    obtain ⟨mains, accessors, references⟩ := @ih arrays (pos + a.dynamicCount) (Nat.succ.inj hlen)
    simp only [argumentChoices, List.map_cons, List.flatMap_cons, List.sum_cons, mains, accessors, references,
      List.take_add, List.drop_drop, and_self]

/-- Arguments whose references stand among the operands are made again. -/
theorem argumentChoices_eq {operands : List Nat} {as : List ArgumentChoice} {pos : Nat}
    (h : ∀ a ∈ as, a.references.length = a.accessors.dynamicCount)
    (ho : as.flatMap (·.references) <+: operands.drop pos) :
    argumentChoices operands (as.map (·.main)) (as.map (·.accessors)) pos = as := by
  induction as generalizing pos with
  | nil => rfl
  | cons a as ih =>
    obtain ⟨here, rest⟩ := append_prefix_drop_iff.mp ho
    have count := h a List.mem_cons_self
    simp only [List.map_cons, argumentChoices, ← count]
    rw [← List.prefix_iff_eq_take.mp here, ih (fun x hx => h x (List.mem_cons_of_mem _ hx)) rest]

/-- Regrouping gives every argument as many of the references behind all arguments as its accessors need. -/
theorem slotOperands_arguments {k : Kind} {as : List ArgumentChoice} (hcall : k.callForm = true)
    (hsizes : op.segmentSizes = .ok [Int.ofNat as.length, Int.ofNat (as.flatMap (·.references)).length])
    (hcount : ∀ a ∈ as, a.references.length = a.accessors.dynamicCount)
    (haccessors : op.tag? callAccessorsTag = some (.tuple (as.map fun a => .accessors a.accessors)))
    (hoperands : op.operands = as.map (·.main) ++ as.flatMap (·.references)) :
    k.slotOperands op = .ok (as.zipIdx.map argumentGroup) := by
  have front : window op.operands 0 (Int.ofNat as.length) = as.map (·.main) := by
    rw [hoperands]
    simpa using window_natCast (as.map (·.main) ++ as.flatMap (·.references)) 0 as.length
  have made : argumentChoices op.operands (as.map (·.main)) (as.map (·.accessors)) as.length = as := by
    refine argumentChoices_eq hcount ?_
    simp only [hoperands, List.drop_left' (List.length_map ..), List.prefix_rfl]
  have groups := @argumentGroups_eq op (as.map fun a => .accessors a.accessors) 0 as.length (as.map (·.main))
    (as.map (·.accessors)) (by simp) (by simp)
  rw [slotOperands, hsizes, ok_bind, if_pos hcall, firstSize, ok_bind, haccessors, Option.getD_some, front]
  rw [made] at groups
  exact groups

theorem slotOperands_call {k : Kind} {sizes : List Int} {as : List ArgumentChoice} (hcall : k.callForm = true)
    (hsizes : op.segmentSizes = .ok sizes) (h : op.FlattensCall b sizes as) :
    k.slotOperands op = .ok (as.zipIdx.map argumentGroup) := by
  rw [h.sizes] at hsizes
  exact slotOperands_arguments hcall hsizes (fun a ha => (h.arguments a ha).count) h.accessors h.operands

theorem verifyCall_rules {k : Kind} {sizes : List Int} :
    k.verifyCall b op sizes = .ok () ↔
      ∃ arrays : List Accessors, op.tag? callAccessorsTag = some (.tuple (arrays.map .accessors)) ∧
        (arrays.length : Int) = sizes.headD 0 ∧ (∃ name, op.tag? calleeTag = some (.symbol name)) ∧
        op.results.length = 1 ∧ ((arrays.map Accessors.dynamicCount).sum : Int) = (sizes.drop 1).headD 0 ∧
        ∃ groups, k.slotOperands op = .ok groups ∧ checkArguments b op groups = .ok () := by
  simp only [← argumentAccessors?_iff]
  unfold verifyCall
  cases argumentAccessors? (op.tag? callAccessorsTag) with
  | none => exact ⟨nofun, fun ⟨_, h, _⟩ => nomatch h⟩
  | some arrays =>
    simp only [rule_iff, Option.some.injEq, bne_iff_ne, ne_eq, Decidable.not_not]
    rw [exists_eq_left']
    refine and_congr_right fun _ => ?_
    split
    · next name h =>
      simp only [rule_iff, Decidable.not_not, bind_eq_ok]
      exact ⟨fun h' => ⟨⟨name, h⟩, h'⟩, fun h' => h'.2⟩
    · next h =>
      refine ⟨nofun, ?_⟩
      rintro ⟨⟨name, hname⟩, -⟩
      exact absurd hname (h name)

theorem verifyCall_iff {k : Kind} {m n : Nat} (hcall : k.callForm = true) (hsum : m + n = op.operands.length)
    (hsizes : op.segmentSizes = .ok ([m, n].map Int.ofNat)) :
    k.verifyCall b op ([m, n].map Int.ofNat) = .ok () ↔ ∃ as, op.FlattensCall b ([m, n].map Int.ofNat) as := by
  rw [verifyCall_rules]
  constructor
  · rintro ⟨arrays, htag, hlen, hcallee, hresult, hdynamic, groups, hgroups, hc⟩
    replace hlen : arrays.length = m := Int.ofNat_inj.mp hlen
    replace hdynamic : (arrays.map Accessors.dynamicCount).sum = n := Int.ofNat_inj.mp hdynamic
    have count : (op.operands.take m).length = arrays.length := by rw [List.length_take]; omega
    -- the arguments come first, and their references are cut off the rest in order
    obtain ⟨mains, accessors, references⟩ := @argumentChoices_parts op.operands _ _ m count
    have front : window op.operands 0 (Int.ofNat m) = op.operands.take m := by
      simpa using window_natCast op.operands 0 m
    have made := @argumentGroups_eq op (arrays.map .accessors) 0 m _ _ count rfl
    rw [slotOperands, hsizes, ok_bind, if_pos hcall, List.map_cons, firstSize, ok_bind, htag, Option.getD_some,
      front] at hgroups
    obtain rfl : _ = groups := Except.ok.inj (made.symm.trans hgroups)
    rw [checkArguments_iff] at hc
    have back : (op.operands.drop m).take n = op.operands.drop m := by
      rw [List.take_of_length_le]
      rw [List.length_drop]; omega
    rw [hdynamic, back] at references
    refine ⟨argumentChoices op.operands (op.operands.take m) arrays m, ?_, hcallee, ?_, ?_, ?_, hresult⟩
    · intro a ha
      obtain ⟨i, hi, rfl⟩ := List.mem_iff_getElem.mp ha
      exact hc (_, 0 + i) (List.mem_iff_getElem.mpr ⟨i, by simpa using hi, by simp⟩)
    · rw [htag]
      conv => lhs; rw [← accessors]
      rw [List.map_map]; rfl
    · rw [mains, references, List.take_append_drop]
    · have length := congrArg List.length mains
      rw [List.length_map, count, hlen] at length
      rw [references, length, List.length_drop]
      simp
      omega
  · rintro ⟨as, h⟩
    have groups := slotOperands_call hcall hsizes h
    have sizes := h.sizes
    simp only [List.map_cons, List.map_nil, List.cons.injEq, and_true] at sizes
    obtain ⟨hm, hn⟩ := sizes
    have counts : as.map (fun a => a.accessors.dynamicCount) = as.map fun a => a.references.length :=
      List.map_congr_left fun a ha => (h.arguments a ha).count.symm
    refine ⟨as.map (·.accessors), ?_, ?_, h.callee, h.result, ?_, _, groups, ?_⟩
    · rw [h.accessors, List.map_map]; rfl
    · rw [List.length_map]; exact hm.symm
    · rw [List.map_map]
      show (((as.map fun a => a.accessors.dynamicCount).sum : Nat) : Int) = Int.ofNat n
      rw [counts, hn, List.length_flatMap]; rfl
    · refine checkArguments_iff.mpr fun x hx => ?_
      obtain ⟨a, i⟩ := x
      exact h.arguments a (List.fst_mem_of_mem_zipIdx hx)

/-! ## Operations -/

end Kind

inductive Assignment
  | slots (gs : List SlotChoice)
  | arguments (as : List ArgumentChoice)

namespace Assignment

/-- The operation is the flattening of the assignment, which is a legal one of the kind. -/
def Legal (k : Kind) (b : Block) (op : Operation) (sizes : List Int) : Assignment → Prop
  | slots gs => k.callForm = false ∧ op.Flattens b k sizes gs
  | arguments as => k.callForm = true ∧ op.FlattensCall b sizes as

def groups (k : Kind) : Assignment → List SlotOperands
  | slots gs => List.zipWith SlotChoice.group k.slots gs
  | arguments as => as.zipIdx.map Kind.argumentGroup

end Assignment

namespace Kind

variable {op : Operation} {b : Block} {k : Kind} {sizes : List Int}

theorem slotOperands_of_legal {a : Assignment} (hsizes : op.segmentSizes = .ok sizes) (h : a.Legal k b op sizes) :
    k.slotOperands op = .ok (a.groups k) := by
  cases a with
  | slots gs =>
    obtain ⟨hcall, h⟩ := h
    have found := slotGroups_of_legal h.slots h.operands_prefix
    rw [slotOperands, hsizes, ok_bind, if_neg (by simp [hcall]), h.sizes]
    exact found
  | arguments as => exact slotOperands_call h.1 hsizes h.2

theorem exists_eq_map_ofNat (h : ∀ n ∈ sizes, 0 ≤ n) : ∃ ns : List Nat, sizes = ns.map Int.ofNat :=
  ⟨sizes.map Int.toNat, by
    rw [List.map_map]
    exact (List.map_id _).symm.trans (List.map_congr_left fun n hn => (Int.toNat_of_nonneg (h n hn)).symm)⟩

theorem sum_map_ofNat (ns : List Nat) : (ns.map Int.ofNat).sum = Int.ofNat ns.sum := by
  induction ns with
  | nil => rfl
  | cons n ns ih => rw [List.map_cons, List.sum_cons, List.sum_cons, ih]; rfl

theorem sizes_of_legal {a : Assignment} (h : a.Legal k b op sizes) :
    sizes.length = k.segmentCount ∧ (∀ n ∈ sizes, 0 ≤ n) ∧ sizes.sum = op.operands.length := by
  unfold segmentCount
  cases a with
  | slots gs =>
    obtain ⟨hcall, h⟩ := h
    obtain ⟨-, count, total⟩ := length_of_legal h.slots
    rw [h.sizes, sum_map_ofNat, List.length_map, count, total, h.operands, hcall]
    refine ⟨rfl, fun n hn => ?_, rfl⟩
    obtain ⟨m, -, rfl⟩ := List.mem_map.mp hn
    exact Int.natCast_nonneg m
  | arguments as =>
    obtain ⟨hcall, h⟩ := h
    have nonneg : ∀ n ∈ [Int.ofNat as.length, Int.ofNat (as.flatMap (·.references)).length], 0 ≤ n :=
      List.forall_mem_cons.mpr ⟨Int.natCast_nonneg _, List.forall_mem_singleton.mpr (Int.natCast_nonneg _)⟩
    rw [h.sizes, hcall, h.operands]
    exact ⟨rfl, nonneg, by simp⟩

/-- **A record is accepted exactly if it is legal.** The verdict about an operation of a kind that states its
segment sizes is that it is the flattening of a legal assignment, which regrouping then gives back. -/
theorem verify_iff (hk : k.Valid) (hname : op.opcode = .text k.name) (hsizes : op.segmentSizes = .ok sizes) :
    (k.verify b op = .ok () ↔ ∃ a : Assignment, a.Legal k b op sizes) ∧
      ∀ a : Assignment, a.Legal k b op sizes → k.slotOperands op = .ok (a.groups k) := by
  refine ⟨?_, fun a => slotOperands_of_legal hsizes⟩
  have rules : k.verify b op = .ok () ↔ sizes.length = k.segmentCount ∧ (∀ n ∈ sizes, 0 ≤ n) ∧
      sizes.sum = op.operands.length ∧
      (if k.callForm then k.verifyCall b op sizes else k.verifyGeneric b op sizes) = .ok () := by
    unfold verify
    have same : op.opcode.same (.text k.name) = true := Block.same_text_iff.mpr hname
    simp only [rule_iff, hsizes, ok_bind, same, Bool.not_true, Bool.false_eq_true, not_false_eq_true, true_and,
      bne_iff_ne, ne_eq, Decidable.not_not, List.any_eq_true, decide_eq_true_eq, not_exists, not_and, Int.not_lt]
  rw [rules]
  constructor
  · rintro ⟨hlen, hpos, hsum, h⟩
    obtain ⟨ns, rfl⟩ := exists_eq_map_ofNat hpos
    rw [List.length_map] at hlen
    rw [sum_map_ofNat] at hsum
    replace hsum : ns.sum = op.operands.length := Int.ofNat_inj.mp hsum
    unfold segmentCount at hlen
    cases hcall : k.callForm with
    | false =>
      simp only [hcall, Bool.false_eq_true, if_false] at hlen h
      obtain ⟨gs, hgs⟩ := (verifyGeneric_iff hk hlen hsum hsizes hcall).mp h
      exact ⟨.slots gs, hcall, hgs⟩
    | true =>
      simp only [hcall, if_true] at hlen h
      obtain ⟨m, n, rfl⟩ := List.length_eq_two.mp hlen
      obtain ⟨as, has⟩ := (verifyCall_iff hcall (by simpa using hsum) hsizes).mp h
      exact ⟨.arguments as, hcall, has⟩
  · rintro ⟨a, h⟩
    obtain ⟨hlen, hpos, hsum⟩ := sizes_of_legal h
    refine ⟨hlen, hpos, hsum, ?_⟩
    obtain ⟨ns, rfl⟩ := exists_eq_map_ofNat hpos
    rw [List.length_map] at hlen
    rw [sum_map_ofNat] at hsum
    replace hsum : ns.sum = op.operands.length := Int.ofNat_inj.mp hsum
    unfold segmentCount at hlen
    cases a with
    | slots gs =>
      obtain ⟨hcall, h⟩ := h
      simp only [hcall, Bool.false_eq_true, if_false] at hlen ⊢
      exact (verifyGeneric_iff hk hlen hsum hsizes hcall).mpr ⟨gs, h⟩
    | arguments as =>
      obtain ⟨hcall, h⟩ := h
      simp only [hcall, if_true] at hlen ⊢
      obtain ⟨m, n, rfl⟩ := List.length_eq_two.mp hlen
      exact (verifyCall_iff hcall (by simpa using hsum) hsizes).mpr ⟨as, h⟩

def measurement : Kind := ⟨"quantum.measure", [⟨"trgt", true, false⟩], false, false, "measure in the Z basis"⟩

def circuitCall : Kind := ⟨"quantum.pcircuit", [], false, true, "instantiate a parametric circuit"⟩

def measured : Block :=
  let accessors : Accessors := ⟨[.dynamic], by decide, by decide⟩
  ⟨[⟨.text "%q", .type (.register none), none, []⟩, ⟨.text "%i", .type .index, none, []⟩], [], [0, 1],
    [⟨.text "quantum.measure", [0, 1], [], [("trgt_accessors", .accessors accessors),
      (segmentSizesTag, segmentSizesAttr [1, 1])], "op0"⟩], 0, 0⟩

/-- The measurement is accepted, and regrouping finds the register with its reference. -/
theorem verify_iff_measured : ∃ op ∈ measured.operations, measurement.verify measured op = .ok () ∧
    ∃ a, measurement.slotOperands op = .ok [⟨"trgt", some 0, [1], a⟩] := by
  refine ⟨measured.operations[0], List.mem_cons_self, ?_⟩
  have sizes := @segmentSizes_eq measured.operations[0] [1, 1] rfl (by decide)
  obtain ⟨accepted, regrouped⟩ := @verify_iff measured.operations[0] measured measurement _ (by decide) rfl sizes
  have legal : (Assignment.slots [⟨some 0, ⟨[.dynamic], by decide, by decide⟩, [1]⟩]).Legal measurement measured
      measured.operations[0] ([1, 1].map Int.ofNat) := by
    refine ⟨rfl, ⟨⟨by decide, fun _ => rfl, rfl, by decide, by decide⟩, trivial⟩, ⟨⟨1, by decide, by decide⟩, ?_⟩,
      by decide, rfl, rfl⟩
    intro x hx _
    obtain rfl := List.mem_singleton.mp hx
    rfl
  exact ⟨accepted.mpr ⟨_, legal⟩, _, regrouped _ legal⟩

end Kind

end GateAsm
