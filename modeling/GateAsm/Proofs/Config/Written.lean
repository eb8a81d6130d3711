import GateAsm.Config.Basic
import GateAsm.Proofs.Built

/-!
# Configurations written as documents

A configuration that was read from a document has kinds that are whole, no two under one mnemonic, and it is read
again from the document that it is written as (`Config.ofDocument_document`).
-/

namespace GateAsm

/-! ## Kinds -/

namespace Kind

/-- A kind in the generic form: it has a mnemonic and slots of different names, with one for its angle in front if it
is a rotation, and no operand has to be given behind one that may be left out. -/
structure Generic (k : Kind) : Prop where
  mnemonic : k.name ≠ ""
  callForm : k.callForm = false
  distinct : (k.slots.map (·.name)).Nodup
  angle : k.rotation = true → ∃ s ss, k.slots = s :: ss ∧ s.register = false
  order : k.operandSlots.Pairwise fun s s' => s.optional = true → s'.optional = true

theorem misplacedSlot?_eq_none_iff {ss : List Slot} :
    misplacedSlot? ss = none ↔ ss.Pairwise fun s s' => s.optional = true → s'.optional = true := by
  unfold misplacedSlot?
  induction ss with
  | nil => simp
  | cons s ss ih =>
    rw [List.pairwise_cons]
    cases ho : s.optional with
    | false =>
      rw [List.dropWhile_cons_of_pos (by simp [ho]), ih]
      simp
    | true =>
      rw [List.dropWhile_cons_of_neg (by simp [ho]), List.find?_cons_of_neg (by simp [ho])]
      have all : ss.find? (!·.optional) = none ↔ ∀ s' ∈ ss, true = true → s'.optional = true := by simp
      rw [all]
      exact (and_iff_left_of_imp fun optional => List.pairwise_of_forall_mem_list fun _ _ s' hs' _ =>
        optional s' hs' rfl).symm

theorem angle_iff {k : Kind} :
    (k.rotation && (k.slots.head?.map (·.register)).getD true) = false ↔
      (k.rotation = true → ∃ s ss, k.slots = s :: ss ∧ s.register = false) := by
  cases k.rotation with
  | false => simp
  | true =>
    cases k.slots with
    | nil => simp
    | cons s ss => simp

theorem generic_iff {k : Kind} : k.Generic ↔ k.Valid ∧ k.callForm = false := by
  unfold Valid fault?
  constructor
  · rintro ⟨mnemonic, callForm, distinct, angle, order⟩
    refine ⟨?_, callForm⟩
    rw [if_neg mnemonic, callForm, Bool.false_and, if_neg Bool.false_ne_true, if_neg (by simpa using distinct),
      angle_iff.mpr angle, if_neg Bool.false_ne_true, misplacedSlot?_eq_none_iff.mpr order]
    rfl
  · rintro ⟨valid, callForm⟩
    split at valid
    · cases valid
    next mnemonic =>
    split at valid
    · cases valid
    split at valid
    · cases valid
    next distinct =>
    split at valid
    · cases valid
    next angle =>
    exact ⟨mnemonic, callForm, by simpa using distinct, angle_iff.mp (Bool.eq_false_iff.mpr angle),
      misplacedSlot?_eq_none_iff.mp (Option.map_eq_none_iff.mp valid)⟩

theorem make_eq_ok_iff {k k' : Kind} : make k = .ok k' ↔ k' = k ∧ k.Valid := by
  unfold make Valid
  cases k.fault? with
  | none => simp [eq_comm]
  | some f => simp

end Kind

namespace Config

variable {d : Document} {c : Config} {k : Kind} {s : Slot}

/-! ## What is read -/

theorem mapError_eq_ok_iff {ε ε' α : Type} {f : ε → ε'} {x : Except ε α} {a : α} :
    x.mapError f = .ok a ↔ x = .ok a := by
  cases x with
  | error e => simp [Except.mapError]
  | ok a' => simp [Except.mapError]

theorem generic_of_kindOf (h : kindOf d = .ok k) : k.Generic := by
  unfold kindOf at h
  obtain ⟨⟨name, entries⟩, -, h⟩ := bind_eq_ok.mp h
  obtain ⟨⟨⟩, -, h⟩ := bind_eq_ok.mp h
  obtain ⟨items, -, h⟩ := bind_eq_ok.mp h
  obtain ⟨slots, -, h⟩ := bind_eq_ok.mp h
  obtain ⟨text, -, h⟩ := bind_eq_ok.mp h
  obtain ⟨rotation, -, h⟩ := bind_eq_ok.mp h
  obtain ⟨summary, -, h⟩ := bind_eq_ok.mp h
  obtain ⟨rfl, valid⟩ := Kind.make_eq_ok_iff.mp (mapError_eq_ok_iff.mp h)
  exact Kind.generic_iff.mpr ⟨valid, rfl⟩

theorem forall_of_mapM {ε α β : Type} {f : α → Except ε β} {P : β → Prop} (hf : ∀ x y, f x = .ok y → P y) {xs : List α}
    {ys : List β} (h : xs.mapM f = .ok ys) : ∀ y ∈ ys, P y := by
  induction xs generalizing ys with
  | nil =>
    cases h
    exact nofun
  | cons x xs ih =>
    obtain ⟨y, zs, hy, hzs, rfl⟩ := Kind.mapM_eq_ok_cons.mp h
    exact List.forall_mem_cons.mpr ⟨hf x y hy, ih hzs⟩

theorem generic_of_ofDocument (h : ofDocument d = .ok c) :
    (∀ k ∈ c.kinds, k.Generic) ∧ (c.kinds.map (·.name)).Nodup := by
  unfold ofDocument at h
  split at h
  · cases h
    exact ⟨nofun, List.nodup_nil⟩
  · obtain ⟨⟨⟩, -, h⟩ := bind_eq_ok.mp h
    obtain ⟨options, -, h⟩ := bind_eq_ok.mp h
    obtain ⟨allow, -, h⟩ := bind_eq_ok.mp h
    obtain ⟨items, -, h⟩ := bind_eq_ok.mp h
    obtain ⟨kinds, hkinds, h⟩ := bind_eq_ok.mp h
    split at h
    · next distinct =>
      cases h
      exact ⟨forall_of_mapM (fun _ _ => generic_of_kindOf) hkinds, distinct⟩
    · cases h
  · cases h

/-! ## What is written -/

theorem mapM_map_eq_ok {ε α β : Type} {f : β → Except ε α} {g : α → β} {xs : List α} (h : ∀ x ∈ xs, f (g x) = .ok x) :
    (xs.map g).mapM f = .ok xs := by
  induction xs with
  | nil => rfl
  | cons x xs ih =>
    obtain ⟨first, others⟩ := List.forall_mem_cons.mp h
    exact Kind.mapM_eq_ok_cons.mpr ⟨x, xs, first, ih others, rfl⟩

theorem slotOf_slotDocument (kind : Document) (s : Slot) : slotOf kind (slotDocument s) = .ok s := by
  rfl

/-- A kind of the generic form is read from the document that it is written as: a summary that is left out is read as
the empty one, and the call form, which is not written at all, is never the form of such a kind. -/
theorem kindOf_kindDocument (h : k.Generic) : kindOf (kindDocument k) = .ok k := by
  have made : Kind.make k = .ok k := Kind.make_eq_ok_iff.mpr ⟨rfl, (Kind.generic_iff.mp h).1⟩
  have slots : (k.slots.map slotDocument).mapM (slotOf (.text k.name)) = .ok k.slots :=
    mapM_map_eq_ok fun s _ => slotOf_slotDocument _ s
  obtain ⟨name, ss, rotation, callForm, summary⟩ := k
  obtain rfl : callForm = false := h.callForm
  by_cases hs : summary = ""
  · subst hs
    exact bind_eq_ok.mpr ⟨_, rfl, bind_eq_ok.mpr ⟨(), rfl, bind_eq_ok.mpr ⟨_, rfl, bind_eq_ok.mpr ⟨ss, slots,
      mapError_eq_ok_iff.mpr made⟩⟩⟩⟩
  · rw [kindDocument, if_neg hs]
    exact bind_eq_ok.mpr ⟨_, rfl, bind_eq_ok.mpr ⟨(), rfl, bind_eq_ok.mpr ⟨_, rfl, bind_eq_ok.mpr ⟨ss, slots,
      mapError_eq_ok_iff.mpr made⟩⟩⟩⟩

theorem ofDocument_of_generic (hk : ∀ k ∈ c.kinds, k.Generic) (hn : (c.kinds.map (·.name)).Nodup) :
    ofDocument c.document = .ok c := by
  have kinds : (c.kinds.map kindDocument).mapM kindOf = .ok c.kinds :=
    mapM_map_eq_ok fun k h => kindOf_kindDocument (hk k h)
  refine bind_eq_ok.mpr ⟨(), rfl, bind_eq_ok.mpr ⟨_, rfl, bind_eq_ok.mpr ⟨c.allowMissingAngle, rfl,
    bind_eq_ok.mpr ⟨_, rfl, bind_eq_ok.mpr ⟨c.kinds, kinds, ?_⟩⟩⟩⟩⟩
  rw [if_pos hn]

/-- **Configurations and their documents.** A configuration that was read has kinds of the generic form only, no two
under one mnemonic; and the document that it is written as is read, as the same configuration. -/
theorem ofDocument_document (h : ofDocument d = .ok c) :
    (∀ k ∈ c.kinds, k.Generic) ∧ (c.kinds.map (·.name)).Nodup ∧ ofDocument c.document = .ok c := by
  obtain ⟨generic, distinct⟩ := generic_of_ofDocument h
  exact ⟨generic, distinct, ofDocument_of_generic generic distinct⟩

def numbered : Document :=
  .mapping [(.text "parser", .mapping [(.text angleOption, .bool true)]),
    (.text "ops", .list [.mapping [(.text "summary", .null), (.text "rotation", .bool true), (.text "name", .int 7),
      (.text "slots", .list [.mapping [(.text "name", .bool false)],
        .mapping [(.text "optional", .bool true), (.text "name", .text "target"), (.text "register", .bool true)]])]])]

def numberedRead : Config :=
  ⟨true, [⟨"7", [⟨"False", false, false⟩, ⟨"target", true, true⟩], true, false, "None"⟩]⟩

theorem ofDocument_document_numbered :
    ofDocument numbered = .ok numberedRead ∧ (∀ k ∈ numberedRead.kinds, k.Generic) ∧
      (numberedRead.kinds.map (·.name)).Nodup ∧ ofDocument numberedRead.document = .ok numberedRead :=
  have read : ofDocument numbered = .ok numberedRead := by decide +kernel
  ⟨read, ofDocument_document read⟩

end Config

end GateAsm
