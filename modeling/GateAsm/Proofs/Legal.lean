import GateAsm.Operation.Verify
import GateAsm.Proofs.Saying

/-!
# Legal operations

An operation is legal if it is the flattening of an assignment of values to the slots of its kind, or to
the arguments of a call. Regrouping the operands of the generic form and checking the slots one by one is
the same as finding such an assignment.
-/

namespace GateAsm

/-! ## Assignments -/

structure SlotChoice where
  main : Option Nat
  accessors : Accessors
  references : List Nat

namespace SlotChoice

def operands (g : SlotChoice) : List Nat := g.main.toList ++ g.references

def sizes (g : SlotChoice) (s : Slot) : List Nat :=
  if s.register then [g.main.toList.length, g.references.length] else [g.main.toList.length]

def group (s : Slot) (g : SlotChoice) : SlotOperands := ⟨s.name, g.main, g.references, .accessors g.accessors⟩

/-- Only a register has an accessor, which its tag holds and which consumes exactly the references, all of
type index; there are none where the slot is absent. -/
structure Legal (b : Block) (op : Operation) (s : Slot) (g : SlotChoice) : Prop where
  plain : s.register = false → g.accessors = .empty
  tag : s.register = true → op.tag? s.accessorTag = some (.accessors g.accessors)
  count : g.references.length = g.accessors.dynamicCount
  index : ∀ id ∈ g.references, (b.typeOf id).isIndex = true
  absent : g.main = none → g.references = []

section
variable {b : Block} {op : Operation} {s : Slot} (hs : s.register = false)
include hs

theorem sizes_plain (g : SlotChoice) : g.sizes s = [g.main.toList.length] := by
  rw [sizes, hs]; rfl

theorem legal_plain (main : Option Nat) : Legal b op s ⟨main, .empty, []⟩ where
  plain _ := rfl
  tag h := absurd h (by rw [hs]; exact nofun)
  count := rfl
  index := List.forall_mem_nil _
  absent _ := rfl

theorem Legal.references_plain {g : SlotChoice} (h : Legal b op s g) : g.references = [] := by
  have := h.count
  rw [h.plain hs] at this
  exact List.length_eq_zero_iff.mp this

end

end SlotChoice

structure ArgumentChoice where
  main : Nat
  accessors : Accessors
  references : List Nat

structure ArgumentChoice.Legal (b : Block) (a : ArgumentChoice) : Prop where
  count : a.references.length = a.accessors.dynamicCount
  index : ∀ id ∈ a.references, (b.typeOf id).isIndex = true

/-- The present slots are a front part of the slots in which all required ones are. -/
structure FrontPresent (ss : List Slot) (gs : List SlotChoice) : Prop where
  front : ∃ n, (∀ g ∈ gs.take n, g.main.isSome = true) ∧ ∀ g ∈ gs.drop n, g.main = none
  required : ∀ x ∈ ss.zip gs, x.1.optional = false → x.2.main.isSome = true

structure Operation.Flattens (op : Operation) (b : Block) (k : Kind) (sizes : List Int) (gs : List SlotChoice) :
    Prop where
  slots : Paired (SlotChoice.Legal b op) k.slots gs
  present : FrontPresent k.operandSlots (if k.rotation then gs.drop 1 else gs)
  angle : k.rotation = true → (op.tag? angleTag).isSome = true → ∀ g ∈ gs.head?, g.main = none
  operands : op.operands = gs.flatMap SlotChoice.operands
  sizes : sizes = ((k.slots.zip gs).flatMap fun x => x.2.sizes x.1).map Int.ofNat

structure Operation.FlattensCall (op : Operation) (b : Block) (sizes : List Int) (as : List ArgumentChoice) : Prop where
  arguments : ∀ a ∈ as, a.Legal b
  callee : ∃ name, op.tag? calleeTag = some (.symbol name)
  accessors : op.tag? callAccessorsTag = some (.tuple (as.map fun a => .accessors a.accessors))
  operands : op.operands = as.map (·.main) ++ as.flatMap (·.references)
  sizes : sizes = [Int.ofNat as.length, Int.ofNat (as.flatMap (·.references)).length]
  result : op.results.length = 1

theorem Operation.Flattens.operands_prefix {op : Operation} {b : Block} {k : Kind} {sizes : List Int}
    {gs : List SlotChoice} (h : op.Flattens b k sizes gs) : gs.flatMap SlotChoice.operands <+: op.operands.drop 0 := by
  simp only [h.operands, List.drop_zero, List.prefix_rfl]

namespace Kind

variable {op : Operation} {b : Block}

/-! ## Rules -/

theorem rule_iff {α β : Type} {c : Prop} [Decidable c] {r : VerifyRule} {f : α → Readback β} {x : Readback β} {y : β} :
    (if c then broken op r >>= f else x) = .ok y ↔ ¬ c ∧ x = .ok y := by
  split
  · next h => exact ⟨nofun, fun h' => absurd h h'.1⟩
  · next h => exact ⟨fun h' => ⟨h, h'⟩, fun h' => h'.2⟩

theorem checkIndexTypes_iff {ids : List Nat} :
    checkIndexTypes b op ids = .ok () ↔ ∀ id ∈ ids, (b.typeOf id).isIndex = true := by
  induction ids with
  | nil => simp [checkIndexTypes]
  | cons id ids ih =>
    rw [checkIndexTypes, List.forall_mem_cons, ← ih]
    cases (b.typeOf id).isIndex <;> simp [broken]

theorem checkReferences_iff {ids : List Nat} {a : Option Attr} {what : String} :
    checkReferences b op ids a what = .ok () ↔
      ∃ array, a = some (.accessors array) ∧ ids.length = array.dynamicCount ∧
        ∀ id ∈ ids, (b.typeOf id).isIndex = true := by
  unfold checkReferences
  split
  · next array =>
    by_cases hcount : array.dynamicCount = ids.length
    · simp [hcount, checkIndexTypes_iff]
    · simp [hcount, broken, Ne.symm hcount]
  · next h =>
    refine ⟨nofun, ?_⟩
    rintro ⟨array, rfl, -⟩
    exact absurd rfl (h array)

theorem checkSlots_cons_iff {absent : Bool} {s : Slot} {g : SlotOperands} {rest : List (Slot × SlotOperands)}
    {sizes : List Int} :
    checkSlots b op absent ((s, g) :: rest) sizes = .ok () ↔
      sizes.headD 0 ≤ 1 ∧ (g.main = none → s.optional = true) ∧ (absent = true → g.main = none) ∧
      (s.register = true → (g.main = none → g.references = []) ∧
        ∃ array, op.tag? s.accessorTag = some (.accessors array) ∧ g.references.length = array.dynamicCount ∧
          ∀ id ∈ g.references, (b.typeOf id).isIndex = true) ∧
      checkSlots b op (absent || g.main.isNone) rest (sizes.drop (slotSegments s)) = .ok () := by
  have references : ∀ {x : Readback Unit},
      (checkReferences b op g.references (op.tag? s.accessorTag) s.accessorTag >>= fun _ => x) = .ok () ↔
      (∃ array, op.tag? s.accessorTag = some (.accessors array) ∧ g.references.length = array.dynamicCount ∧
        ∀ id ∈ g.references, (b.typeOf id).isIndex = true) ∧ x = .ok () := by
    intro x
    rw [bind_eq_ok, ← checkReferences_iff]
    exact ⟨fun ⟨_, h, h'⟩ => ⟨h, h'⟩, fun ⟨h, h'⟩ => ⟨(), h, h'⟩⟩
  simp only [checkSlots, rule_iff]
  cases s.register with
  | true =>
    simp only [rule_iff, if_true, references]
    cases g.main <;> cases absent <;> simp [and_assoc]
  | false => cases g.main <;> cases absent <;> simp

/-! ## Regrouping -/

theorem window_natCast {α : Type} (xs : List α) (i n : Nat) :
    window xs (i : Int) ((i : Int) + n) = (xs.drop i).take n := by
  rw [window, ← Int.natCast_add, boundIn_natCast, boundIn_natCast, List.drop_take]
  by_cases hi : i ≤ xs.length
  · rw [Nat.min_eq_left hi]
    by_cases hn : i + n ≤ xs.length
    · rw [Nat.min_eq_left hn, Nat.add_sub_cancel_left]
    · rw [Nat.min_eq_right (by omega), List.take_of_length_le (by simp), List.take_of_length_le (by simp; omega)]
  · rw [List.drop_eq_nil_of_le (by omega), List.drop_eq_nil_of_le (by omega), List.take_nil, List.take_nil]

theorem itemAt?_natCast {α : Type} (xs : List α) (i : Nat) : itemAt? xs (i : Int) = xs[i]? := by
  have : ¬ (i : Int) < 0 := by omega
  simp only [itemAt?, this, if_false, Int.toNat_natCast]

theorem main_iff {m pos : Nat} (hm : m ≤ 1) {main : Option Nat} :
    ((if (m : Int) = 0 then pure none
      else match itemAt? op.operands pos with
        | some id => pure (some id)
        | none => throw (.mismatch .outOfRange) : Readback (Option Nat)) = .ok main) ↔
      main.toList.length = m ∧ main.toList <+: op.operands.drop pos := by
  rw [itemAt?_natCast]
  cases m with
  | zero => cases main <;> simp [pure_eq_ok]
  | succ m =>
    obtain rfl : m = 0 := by omega
    cases hfound : op.operands[pos]? with
    | none =>
      have : op.operands.drop pos = [] := List.drop_eq_nil_of_le (List.getElem?_eq_none_iff.mp hfound)
      cases main <;> simp [this]
    | some id =>
      obtain ⟨hlt, rfl⟩ := List.getElem?_eq_some_iff.mp hfound
      rw [List.drop_eq_getElem_cons hlt]
      cases main with
      | none => simp [pure_eq_ok]
      | some v => simp only [List.cons_prefix_cons, Option.toList_some, List.nil_prefix]; simp [pure_eq_ok, eq_comm]

theorem slotGroups_cons {s : Slot} {ss : List Slot} {m pos : Nat} {ns : List Nat} (hm : m ≤ 1)
    {groups : List SlotOperands} :
    slotGroups op (s :: ss) ((m :: ns).map Int.ofNat) pos = .ok groups ↔
      ∃ main : Option Nat, (main.toList.length = m ∧ main.toList <+: op.operands.drop pos) ∧
        (if s.register then do
            let count ← firstSize (ns.map Int.ofNat)
            let rest ← slotGroups op ss ((ns.map Int.ofNat).drop 1) ((pos + m : Nat) + count)
            return ⟨s.name, main, window op.operands (pos + m : Nat) ((pos + m : Nat) + count),
              (op.tag? s.accessorTag).getD (.accessors .empty)⟩ :: rest
          else do
            let rest ← slotGroups op ss (ns.map Int.ofNat) (pos + m : Nat)
            return ⟨s.name, main, [], .accessors .empty⟩ :: rest : Readback (List SlotOperands)) = .ok groups := by
  simp only [← main_iff hm, ← bind_eq_ok]
  rw [slotGroups]
  simp only [List.map_cons, firstSize, ok_bind, List.drop_succ_cons, List.drop_zero, Int.ofNat_eq_natCast]
  split
  · rfl
  · cases itemAt? op.operands (pos : Int) <;> rfl

theorem slotGroups_register {s : Slot} (hs : s.register = true) {ss : List Slot} {m n pos : Nat} {ns : List Nat}
    (hm : m ≤ 1) {groups : List SlotOperands} :
    slotGroups op (s :: ss) ((m :: n :: ns).map Int.ofNat) pos = .ok groups ↔
      ∃ main rest, (main.toList.length = m ∧ main.toList <+: op.operands.drop pos) ∧
        slotGroups op ss (ns.map Int.ofNat) (pos + m + n : Nat) = .ok rest ∧
        groups = ⟨s.name, main, (op.operands.drop (pos + m)).take n,
          (op.tag? s.accessorTag).getD (.accessors .empty)⟩ :: rest := by
  rw [slotGroups_cons hm]
  refine exists_congr fun main => ?_
  simp only [hs, if_true, List.map_cons, firstSize, ok_bind, List.drop_succ_cons, List.drop_zero, bind_eq_ok,
    Int.ofNat_eq_natCast, window_natCast, pure_eq_ok, Except.ok.injEq]
  constructor
  · rintro ⟨hmain, rest, hrest, rfl⟩
    exact ⟨rest, hmain, hrest, rfl⟩
  · rintro ⟨rest, hmain, hrest, rfl⟩
    exact ⟨hmain, rest, hrest, rfl⟩

theorem slotGroups_plain {s : Slot} (hs : s.register = false) {ss : List Slot} {m pos : Nat} {ns : List Nat}
    (hm : m ≤ 1) {groups : List SlotOperands} :
    slotGroups op (s :: ss) ((m :: ns).map Int.ofNat) pos = .ok groups ↔
      ∃ main rest, (main.toList.length = m ∧ main.toList <+: op.operands.drop pos) ∧
        slotGroups op ss (ns.map Int.ofNat) (pos + m : Nat) = .ok rest ∧
        groups = ⟨s.name, main, [], .accessors .empty⟩ :: rest := by
  rw [slotGroups_cons hm]
  refine exists_congr fun main => ?_
  simp only [hs, Bool.false_eq_true, if_false, bind_eq_ok, pure_eq_ok, Except.ok.injEq]
  constructor
  · rintro ⟨hmain, rest, hrest, rfl⟩
    exact ⟨rest, hmain, hrest, rfl⟩
  · rintro ⟨rest, hmain, hrest, rfl⟩
    exact ⟨hmain, rest, hrest, rfl⟩

/-! ## Slots -/

/-- The present slots come first, and only optional ones are absent; `absent` tells that a slot before them is. -/
def TailAbsent : (absent : Bool) → List Slot → List SlotChoice → Prop
  | _, [], _ => True
  | _, _ :: _, [] => True
  | absent, s :: ss, g :: gs =>
    (g.main = none → s.optional = true) ∧ (absent = true → g.main = none) ∧ TailAbsent (absent || g.main.isNone) ss gs

theorem length_slotGroups {ss : List Slot} {sizes : List Int} {pos : Int} {groups : List SlotOperands}
    (h : slotGroups op ss sizes pos = .ok groups) : groups.length = ss.length := by
  induction ss generalizing sizes pos groups with
  | nil => cases h; rfl
  | cons s ss ih =>
    rw [slotGroups] at h
    obtain ⟨size, -, h⟩ := bind_eq_ok.mp h
    have tail : ∀ main : Option Nat, (if s.register then do
        let count ← firstSize (sizes.drop 1)
        let rest ← slotGroups op ss (sizes.drop 2) (pos + size + count)
        return ⟨s.name, main, window op.operands (pos + size) (pos + size + count),
          (op.tag? s.accessorTag).getD (.accessors .empty)⟩ :: rest
      else do
        let rest ← slotGroups op ss (sizes.drop 1) (pos + size)
        return ⟨s.name, main, [], .accessors .empty⟩ :: rest : Readback (List SlotOperands)) = .ok groups →
        groups.length = (s :: ss).length := by
      intro main h
      split at h
      · obtain ⟨count, -, h⟩ := bind_eq_ok.mp h
        obtain ⟨rest, hrest, h⟩ := bind_eq_ok.mp h
        cases h
        rw [List.length_cons, ih hrest, List.length_cons]
      · obtain ⟨rest, hrest, h⟩ := bind_eq_ok.mp h
        cases h
        rw [List.length_cons, ih hrest, List.length_cons]
    dsimp only at h
    split at h
    · exact tail _ h
    · split at h
      · exact tail _ h
      · cases h

theorem take_segment {α : Type} {xs ys : List α} {pos m : Nat} (hm : xs.length = m) (h : xs <+: ys.drop pos) (n : Nat) :
    (ys.drop pos).take (m + n) = xs ++ (ys.drop (pos + m)).take n := by
  rw [List.take_add, List.drop_drop, ← hm, ← List.prefix_iff_eq_take.mp h]

/-- Slots that are regrouped and comply with the rules have a legal choice. -/
theorem slots_sound {ss : List Slot} {ns : List Nat} {pos : Nat} {groups : List SlotOperands} {absent : Bool}
    (hlen : ns.length = (ss.map slotSegments).sum)
    (hg : slotGroups op ss (ns.map Int.ofNat) pos = .ok groups)
    (hc : checkSlots b op absent (ss.zip groups) (ns.map Int.ofNat) = .ok ())
    (hroom : pos + ns.sum ≤ op.operands.length) :
    ∃ gs, Paired (SlotChoice.Legal b op) ss gs ∧ TailAbsent absent ss gs ∧
      ns = (ss.zip gs).flatMap (fun x => x.2.sizes x.1) ∧
      (op.operands.drop pos).take ns.sum = gs.flatMap SlotChoice.operands := by
  -- slots and sizes are passed in step: a register takes two sizes, any other slot one
  induction ss generalizing ns pos groups absent with
  | nil =>
    obtain rfl := List.length_eq_zero_iff.mp hlen
    exact ⟨[], trivial, trivial, rfl, rfl⟩
  | cons s ss ih =>
    obtain ⟨g, groups, rfl⟩ := List.exists_cons_of_length_eq_add_one (length_slotGroups hg)
    rw [List.zip_cons_cons] at hc
    obtain ⟨hone, hrequired, hback, hregister, hrest⟩ := checkSlots_cons_iff.mp hc
    obtain ⟨m, ns, rfl⟩ : ∃ m ns', ns = m :: ns' := by
      cases ns with
      | nil => cases hs : s.register <;> simp [slotSegments, hs] at hlen <;> omega
      | cons m ns => exact ⟨m, ns, rfl⟩
    have hm : m ≤ 1 := Int.ofNat_le.mp hone
    rw [List.sum_cons] at hroom ⊢
    cases hs : s.register with
    | true =>
      obtain ⟨n, ns, rfl⟩ : ∃ n ns', ns = n :: ns' := by
        cases ns with
        | nil => simp [slotSegments, hs] at hlen; omega
        | cons n ns => exact ⟨n, ns, rfl⟩
      obtain ⟨main, rest, ⟨hcount, hfront⟩, hgroups, hcons⟩ := (slotGroups_register hs hm).mp hg
      cases hcons
      obtain ⟨habsent, array, htag, hdynamic, hindex⟩ := hregister hs
      rw [List.sum_cons] at hroom ⊢
      obtain ⟨gs, legal, tail, sizes, operands⟩ := ih
        (by simp [slotSegments, hs] at hlen; omega) hgroups (by simpa [slotSegments, hs] using hrest) (by omega)
      -- the references are the operands of the second segment
      have count : ((op.operands.drop (pos + m)).take n).length = n := by simp; omega
      refine ⟨⟨main, array, (op.operands.drop (pos + m)).take n⟩ :: gs, ⟨?_, legal⟩, ⟨hrequired, hback, tail⟩, ?_, ?_⟩
      · exact ⟨fun h => absurd h (by simp [hs]), fun _ => htag, hdynamic, hindex, habsent⟩
      · rw [List.zip_cons_cons, List.flatMap_cons, ← sizes]
        simp only [SlotChoice.sizes, hs, if_true, hcount, count]
        rfl
      · rw [take_segment hcount hfront, List.take_add, List.drop_drop, operands, ← List.append_assoc]
        rfl
    | false =>
      obtain ⟨main, rest, ⟨hcount, hfront⟩, hgroups, hcons⟩ := (slotGroups_plain hs hm).mp hg
      cases hcons
      obtain ⟨gs, legal, tail, sizes, operands⟩ := ih
        (by simp [slotSegments, hs] at hlen; omega) hgroups (by simpa [slotSegments, hs] using hrest) (by omega)
      refine ⟨⟨main, .empty, []⟩ :: gs, ⟨SlotChoice.legal_plain hs main, legal⟩, ⟨hrequired, hback, tail⟩, ?_, ?_⟩
      · rw [List.zip_cons_cons, List.flatMap_cons, ← sizes, SlotChoice.sizes_plain hs, hcount]
        rfl
      · rw [take_segment hcount hfront, operands]
        simp [SlotChoice.operands]

theorem append_prefix_drop_iff {α : Type} {xs ys zs : List α} {pos : Nat} :
    xs ++ ys <+: zs.drop pos ↔ xs <+: zs.drop pos ∧ ys <+: zs.drop (pos + xs.length) := by
  constructor
  · rintro ⟨rest, h⟩
    rw [List.append_assoc] at h
    refine ⟨⟨_, h⟩, rest, ?_⟩
    rw [← List.drop_drop, ← h, List.drop_left]
  · rintro ⟨⟨rest, h⟩, ⟨rest', h'⟩⟩
    rw [← List.drop_drop, ← h, List.drop_left] at h'
    exact ⟨rest', by rw [List.append_assoc, h', h]⟩

theorem slotGroups_of_legal {ss : List Slot} {gs : List SlotChoice} {pos : Nat}
    (h : Paired (SlotChoice.Legal b op) ss gs) (ho : gs.flatMap SlotChoice.operands <+: op.operands.drop pos) :
    slotGroups op ss (((ss.zip gs).flatMap fun x => x.2.sizes x.1).map Int.ofNat) pos =
      .ok (List.zipWith SlotChoice.group ss gs) := by
  induction ss generalizing gs pos with
  | nil =>
    cases gs with
    | nil => rfl
    | cons g gs => cases h
  | cons s ss ih =>
    cases gs with
    | nil => cases h
    | cons g gs =>
      obtain ⟨here, rest⟩ := h
      have hm : g.main.toList.length ≤ 1 := by cases g.main <;> simp
      rw [List.flatMap_cons, append_prefix_drop_iff, SlotChoice.operands, append_prefix_drop_iff] at ho
      obtain ⟨⟨hmain, href⟩, hrest⟩ := ho
      rw [List.zip_cons_cons, List.flatMap_cons, SlotChoice.sizes, List.zipWith_cons_cons]
      cases hs : s.register with
      | true =>
        simp only [if_true, List.cons_append, List.nil_append]
        refine (slotGroups_register hs hm).mpr ⟨g.main, _, ⟨rfl, hmain⟩, ih rest ?_, ?_⟩
        · rw [Nat.add_assoc, ← List.length_append]; exact hrest
        · rw [here.tag hs, ← List.prefix_iff_eq_take.mp href]; rfl
      | false =>
        have none := here.references_plain hs
        simp only [Bool.false_eq_true, if_false, List.cons_append, List.nil_append]
        refine (slotGroups_plain hs hm).mpr ⟨g.main, _, ⟨rfl, hmain⟩, ih rest ?_, ?_⟩
        · simpa [none] using hrest
        · rw [SlotChoice.group, here.plain hs, none]

/-- Legal choices comply with the rules. -/
theorem checkSlots_of_legal {ss : List Slot} {gs : List SlotChoice} {absent : Bool}
    (h : Paired (SlotChoice.Legal b op) ss gs) (ht : TailAbsent absent ss gs) :
    checkSlots b op absent (ss.zip (List.zipWith SlotChoice.group ss gs))
      (((ss.zip gs).flatMap fun x => x.2.sizes x.1).map Int.ofNat) = .ok () := by
  induction ss generalizing gs absent with
  | nil =>
    cases gs with
    | nil => rfl
    | cons g gs => cases h
  | cons s ss ih =>
    cases gs with
    | nil => cases h
    | cons g gs =>
      obtain ⟨here, rest⟩ := h
      obtain ⟨hrequired, hback, ht⟩ := ht
      rw [List.zipWith_cons_cons, List.zip_cons_cons, checkSlots_cons_iff]
      refine ⟨?_, hrequired, hback, ?_, ?_⟩
      · rw [List.zip_cons_cons, List.flatMap_cons, SlotChoice.sizes]
        cases s.register <;> cases g.main <;> simp
      · exact fun hs => ⟨here.absent, g.accessors, here.tag hs, here.count, here.index⟩
      · have := ih rest ht
        rw [List.zip_cons_cons, List.flatMap_cons, SlotChoice.sizes, slotSegments]
        cases s.register <;> exact this

theorem tailAbsent_iff {ss : List Slot} {gs : List SlotChoice} {absent : Bool} (hlen : ss.length = gs.length) :
    TailAbsent absent ss gs ↔ (absent = true → ∀ g ∈ gs, g.main = none) ∧ FrontPresent ss gs := by
  induction ss generalizing gs absent with
  | nil =>
    obtain rfl := List.length_eq_zero_iff.mp hlen.symm
    exact ⟨fun _ => ⟨nofun, ⟨0, nofun, nofun⟩, nofun⟩, fun _ => trivial⟩
  | cons s ss ih =>
    obtain ⟨g, gs, rfl⟩ := List.exists_cons_of_length_eq_add_one hlen.symm
    rw [TailAbsent, ih (Nat.succ.inj hlen)]
    constructor
    · rintro ⟨hrequired, hback, hall, ⟨n, hfront, hrest⟩, hothers⟩
      refine ⟨fun ha x hx => ?_, ?_, ?_⟩
      · rcases List.mem_cons.mp hx with rfl | hx
        · exact hback ha
        · exact hall (by rw [ha]; rfl) x hx
      -- the front goes on behind the first slot only if that one is present
      · cases hg : g.main with
        | none =>
          refine ⟨0, nofun, fun x hx => ?_⟩
          rcases List.mem_cons.mp hx with rfl | hx
          · exact hg
          · exact hall (by rw [hg]; simp) x hx
        | some id =>
          refine ⟨n + 1, fun x hx => ?_, hrest⟩
          rcases List.mem_cons.mp hx with rfl | hx
          · rw [hg]; rfl
          · exact hfront x hx
      · intro x hx ho
        rcases List.mem_cons.mp hx with rfl | hx
        · cases hg : g.main with
          | none => rw [hrequired hg] at ho; cases ho
          | some id => rfl
        · exact hothers x hx ho
    · rintro ⟨hall, ⟨n, hfront, hrest⟩, hothers⟩
      have required := hothers (s, g) List.mem_cons_self
      refine ⟨fun hg => ?_, fun ha => hall ha g List.mem_cons_self, ?_, ?_, ?_⟩
      · cases ho : s.optional with
        | true => rfl
        | false => simp [hg, ho] at required
      · intro ha x hx
        cases n with
        | zero => exact hrest x (List.mem_cons_of_mem _ hx)
        | succ n =>
          have present := hfront g List.mem_cons_self
          rcases Bool.or_eq_true_iff.mp ha with ha | ha
          · exact hall ha x (List.mem_cons_of_mem _ hx)
          · simp [Option.isNone_iff_eq_none.mp ha] at present
      · cases n with
        | zero => exact ⟨0, nofun, fun x hx => hrest x (List.mem_cons_of_mem _ hx)⟩
        | succ n => exact ⟨n, fun x hx => hfront x (List.mem_cons_of_mem _ hx), hrest⟩
      · exact fun x hx => hothers x (List.mem_cons_of_mem _ hx)

theorem length_of_legal {ss : List Slot} {gs : List SlotChoice} (h : Paired (SlotChoice.Legal b op) ss gs) :
    ss.length = gs.length ∧ ((ss.zip gs).flatMap fun x => x.2.sizes x.1).length = (ss.map slotSegments).sum ∧
      ((ss.zip gs).flatMap fun x => x.2.sizes x.1).sum = (gs.flatMap SlotChoice.operands).length := by
  induction ss generalizing gs with
  | nil => cases gs <;> first | exact ⟨rfl, rfl, rfl⟩ | cases h
  | cons s ss ih =>
    cases gs with
    | nil => cases h
    | cons g gs =>
      obtain ⟨here, rest⟩ := h
      obtain ⟨same, count, total⟩ := ih rest
      rw [List.zip_cons_cons, List.flatMap_cons, List.flatMap_cons, List.length_append, List.length_append,
        List.sum_append, count, total, List.map_cons, List.sum_cons, SlotChoice.operands,
        SlotChoice.sizes, slotSegments]
      refine ⟨congrArg Nat.succ same, ?_, ?_⟩
      · cases s.register <;> rfl
      · cases hs : s.register with
        | true => simp
        | false => simp [here.references_plain hs]

section
variable {k : Kind} {ns : List Nat}

theorem slotOperands_of_sizes (hsizes : op.segmentSizes = .ok (ns.map Int.ofNat)) (hcall : k.callForm = false) :
    k.slotOperands op = slotGroups op k.slots (ns.map Int.ofNat) (0 : Nat) := by
  rw [slotOperands, hsizes, ok_bind, hcall]
  rfl

section
variable (hlen : ns.length = (k.slots.map slotSegments).sum) (hsum : ns.sum = op.operands.length)
  (hsizes : op.segmentSizes = .ok (ns.map Int.ofNat)) (hcall : k.callForm = false)
include hlen hsum hsizes hcall

theorem verifyGeneric_iff_of_not_rotation (hrot : k.rotation = false) :
    k.verifyGeneric b op (ns.map Int.ofNat) = .ok () ↔ ∃ gs, op.Flattens b k (ns.map Int.ofNat) gs := by
  have all : (op.operands.drop 0).take ns.sum = op.operands := by rw [hsum, List.drop_zero, List.take_length]
  have slots : k.operandSlots = k.slots := by rw [operandSlots, hrot]; rfl
  unfold verifyGeneric
  rw [slotOperands_of_sizes hsizes hcall]
  simp only [rule_iff, bind_eq_ok, hrot]
  constructor
  · rintro ⟨-, groups, hg, hc⟩
    obtain ⟨gs, legal, tail, sizes, operands⟩ := slots_sound hlen hg hc (by omega)
    refine ⟨gs, legal, ?_, ?_, ?_, ?_⟩
    · rw [slots, hrot]
      exact ((tailAbsent_iff (length_of_legal legal).1).mp tail).2
    · exact fun h => absurd h (by simp [hrot])
    · rw [← operands, all]
    · rw [← sizes]
  · rintro ⟨gs, h⟩
    have present := h.present
    rw [slots, hrot] at present
    have tail : TailAbsent false k.slots gs := (tailAbsent_iff (length_of_legal h.slots).1).mpr ⟨by simp, present⟩
    rw [h.sizes]
    exact ⟨by simp, _, slotGroups_of_legal h.slots h.operands_prefix, checkSlots_of_legal h.slots tail⟩

theorem verifyGeneric_iff_of_rotation (hk : k.Valid) (hrot : k.rotation = true) :
    k.verifyGeneric b op (ns.map Int.ofNat) = .ok () ↔ ∃ gs, op.Flattens b k (ns.map Int.ofNat) gs := by
  have all : (op.operands.drop 0).take ns.sum = op.operands := by rw [hsum, List.drop_zero, List.take_length]
  obtain ⟨s, hslots, hs⟩ := hk.angleSlot hrot
  unfold verifyGeneric
  rw [slotOperands_of_sizes hsizes hcall]
  simp only [rule_iff, bind_eq_ok, hrot]
  rw [hslots] at hlen ⊢
  -- the angle is no register, so only the first size is its own
  obtain ⟨m, ns, rfl⟩ : ∃ m ns', ns = m :: ns' := by
    cases ns with
    | nil => simp [slotSegments, hs] at hlen; omega
    | cons m ns => exact ⟨m, ns, rfl⟩
  rw [List.sum_cons] at hsum
  constructor
  · rintro ⟨hangle, groups, hg, hc⟩
    obtain ⟨g, groups, rfl⟩ := List.exists_cons_of_length_eq_add_one (length_slotGroups hg)
    rw [List.zip_cons_cons] at hc
    simp only [rule_iff] at hc
    obtain ⟨hone, hc⟩ := hc
    have hm : m ≤ 1 := Int.ofNat_le.mp (Int.not_lt.mp hone)
    obtain ⟨main, rest, ⟨hcount, hfront⟩, hgroups, hcons⟩ := (slotGroups_plain hs hm).mp hg
    cases hcons
    obtain ⟨gs, legal, tail, sizes, operands⟩ := slots_sound (by simp [slotSegments, hs] at hlen; omega)
      hgroups hc (by omega)
    refine ⟨⟨main, .empty, []⟩ :: gs, ?_, ?_, ?_, ?_, ?_⟩
    · rw [hslots]
      exact ⟨SlotChoice.legal_plain hs main, legal⟩
    · rw [hrot]
      exact ((tailAbsent_iff (length_of_legal legal).1).mp tail).2
    · intro _ ht x hx
      cases hx
      cases main with
      | none => rfl
      | some id => simp [ht, ← hcount] at hangle
    · rw [← all, List.sum_cons, take_segment hcount hfront, operands]
      simp [SlotChoice.operands]
    · rw [hslots, List.zip_cons_cons, List.flatMap_cons, ← sizes, SlotChoice.sizes_plain hs, hcount]
      rfl
  · rintro ⟨gs, h⟩
    have legal := h.slots
    rw [hslots] at legal
    cases gs with
    | nil => cases legal
    | cons g gs =>
      have present := h.present
      rw [hrot] at present
      have sizes := h.sizes
      rw [hslots] at sizes
      have tail : TailAbsent false k.operandSlots gs :=
        (tailAbsent_iff (length_of_legal legal.2).1).mpr ⟨by simp, present⟩
      have regroup := slotGroups_of_legal legal h.operands_prefix
      have rest := checkSlots_of_legal legal.2 tail
      rw [List.zip_cons_cons, List.flatMap_cons, SlotChoice.sizes_plain hs, List.singleton_append] at sizes regroup
      rw [sizes]
      refine ⟨?_, _, regroup, ?_⟩
      · cases ht : (op.tag? angleTag).isSome with
        | false => simp
        | true => simp [h.angle hrot ht g rfl]
      · rw [List.zipWith_cons_cons, List.zip_cons_cons]
        simp only [rule_iff]
        refine ⟨?_, rest⟩
        cases g.main <;> simp

end

/-- The rules of the generic form say that the operation is the flattening of choices for its slots. -/
theorem verifyGeneric_iff (hk : k.Valid) (hlen : ns.length = (k.slots.map slotSegments).sum)
    (hsum : ns.sum = op.operands.length) (hsizes : op.segmentSizes = .ok (ns.map Int.ofNat))
    (hcall : k.callForm = false) :
    k.verifyGeneric b op (ns.map Int.ofNat) = .ok () ↔ ∃ gs, op.Flattens b k (ns.map Int.ofNat) gs := by
  cases hrot : k.rotation with
  | false => exact verifyGeneric_iff_of_not_rotation hlen hsum hsizes hcall hrot
  | true => exact verifyGeneric_iff_of_rotation hlen hsum hsizes hcall hk hrot

end

end Kind

end GateAsm
