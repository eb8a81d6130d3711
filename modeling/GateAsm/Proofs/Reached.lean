import GateAsm.Proofs.Created
import GateAsm.Proofs.Loading
import GateAsm.Proofs.Rollback
import GateAsm.Proofs.UseDef

/-!
# Blocks that can be reached

A block grows by inputs that are added, by instructions that are read or built, and it shrinks back when an
instruction has an error in it. Whatever the order, and also if the block was loaded from its serialized
form, definitions and uses agree: `Block.ssa_of_reached`.
-/

namespace GateAsm

/-! ## Single assignment -/

/-- The values of the block are assigned once, and know their operation and their uses. -/
structure Block.Ssa (b : Block) : Prop where
  unique : b.scope.Pairwise fun e e' => e.1.same e'.1 = false
  keyed : ∀ e ∈ b.scope, ∃ v, b.value? e.2 = some v ∧ v.name = e.1
  inputs_nodup : b.inputs.Nodup
  inputs_inScope : ∀ id ∈ b.inputs, b.InScope id
  origin : ∀ id, b.InScope id →
    (id ∈ b.inputs ∧ b.definer id = none ∧ ∀ op ∈ b.operations, id ∉ op.results) ∨
    (id ∉ b.inputs ∧ ∃ k op, b.operations[k]? = some op ∧ id ∈ op.results ∧ b.definer id = some ⟨k, none⟩ ∧
      ∀ k' op', b.operations[k']? = some op' → id ∈ op'.results → k' = k)
  results_inScope : ∀ op ∈ b.operations, op.results.Nodup ∧ ∀ id ∈ op.results, b.InScope id
  operands : ∀ (k : Nat) op, b.operations[k]? = some op → ∀ id ∈ op.operands,
    id ∈ b.inputs ∨ ∃ (j : Nat) (op' : Operation), j < k ∧ b.operations[j]? = some op' ∧ id ∈ op'.results
  uses : ∀ id, b.InScope id →
    b.usesOf id = (b.operations.zipIdx.filter fun x => x.1.operands.contains id).map fun x => ⟨x.2, none⟩
  opNames : ∀ (k : Nat) op, b.operations[k]? = some op → op.name = s!"op{k}"

namespace Block

section
variable {b b' : Block} {id : Nat}

theorem position_eq {ops : List Operation} (h : (ops.flatMap (·.results)).Nodup) {j k : Nat} {o p : Operation}
    (hj : ops[j]? = some o) (hk : ops[k]? = some p) (ho : id ∈ o.results) (hp : id ∈ p.results) : j = k := by
  obtain ⟨hjlt, rfl⟩ := List.getElem?_eq_some_iff.mp hj
  obtain ⟨hklt, rfl⟩ := List.getElem?_eq_some_iff.mp hk
  by_contra hne
  have apart := List.pairwise_iff_getElem.mp (List.nodup_flatMap.mp h).2
  rcases Nat.lt_or_gt_of_ne hne with hlt | hlt
  · exact apart j k hjlt hklt hlt ho hp
  · exact apart k j hklt hjlt hlt hp ho

theorem mem_results {k : Nat} {op : Operation} (hk : b.operations[k]? = some op) (hid : id ∈ op.results) :
    id ∈ b.results := List.mem_flatMap.mpr ⟨op, List.mem_of_getElem? hk, hid⟩

theorem UseDef.toSsa (h : b.UseDef []) : b.Ssa := by
  have distinct := h.distinct
  rw [List.append_nil] at distinct
  have origin : ∀ id, b.InScope id ↔ id ∈ b.inputs ∨ id ∈ b.results := by
    intro id
    rw [h.origin, List.append_nil, List.mem_append]
  obtain ⟨inputs, results, apart⟩ := List.nodup_append.mp distinct
  refine ⟨h.names, ?_, inputs, fun id hid => (origin id).mpr (.inl hid), ?_, ?_, ?_, h.uses, h.opNames⟩
  · intro e he
    obtain ⟨hlt, hname⟩ := h.wellScoped e he
    have hv := Block.value?_of_lt hlt
    exact ⟨_, hv, by rw [← hname, nameOf, hv]; rfl⟩
  · intro id hid
    rcases (origin id).mp hid with hin | hin
    · refine .inl ⟨hin, h.free id (List.mem_append_left _ hin), fun op hop hr => ?_⟩
      exact apart id hin id (List.mem_flatMap.mpr ⟨op, hop, hr⟩) rfl
    · obtain ⟨op, hop, hr⟩ := List.mem_flatMap.mp hin
      obtain ⟨k, hk⟩ := List.mem_iff_getElem?.mp hop
      refine .inr ⟨fun hi => apart id hi id hin rfl, k, op, hk, hr, h.defined k op hk id hr, ?_⟩
      exact fun k' op' hk' hr' => position_eq results hk' hk hr' hr
  · intro op hop
    obtain ⟨each, -⟩ := List.nodup_flatMap.mp results
    exact ⟨each op hop, fun id hid => (origin id).mpr (.inr (List.mem_flatMap.mpr ⟨op, hop, hid⟩))⟩
  · intro k op hk id hid
    rcases List.mem_append.mp (h.operands k op hk id hid) with hin | hin
    · exact .inl hin
    · obtain ⟨o, ho, hr⟩ := List.mem_flatMap.mp hin
      obtain ⟨j, hj⟩ := List.mem_iff_getElem?.mp ho
      rw [List.getElem?_take] at hj
      split at hj
      · next hlt => exact .inr ⟨j, o, hlt, hj, hr⟩
      · cases hj

/-! ## Inputs and lines -/

theorem inScope_of_inScope? {l : Label} (h : b.inScope? l = some id) : b.InScope id := by
  obtain ⟨e, he, rfl⟩ := Option.map_eq_some_iff.mp h
  exact List.mem_map_of_mem (List.mem_of_find?_eq_some he)

theorem inScope_of_lookup {n : String} (h : b.lookup n = some id) : b.InScope id := by
  unfold lookup at h
  split at h
  · cases h
  · exact inScope_of_inScope? h

theorem UseDef.mentionAll {uses : List (String × Ty)} (h : b.UseDef []) (hv : ∀ u ∈ uses, Visible u.1) :
    (b.mentionAll uses).UseDef [] :=
  mentionAll_induction h fun _ hc u hu hl => hc.addInput (addInput_text ((lookup_eq (hv u hu)).symm.trans hl))

section
variable (hr : b.Recovers b') (h : b.UseDef [])
include hr

theorem Recovers.results_eq : b'.results = b.results := by
  rw [Block.results, hr.operations]
  rfl

theorem Recovers.inScope_iff : b'.InScope id ↔ b.InScope id := by
  rw [InScope, InScope, hr.scope]

include h

theorem Recovers.value?_eq (hid : b.InScope id) : b'.value? id = b.value? id :=
  value?_eq_of_prefix hr.values (h.wellScoped.lt hid)

theorem Recovers.definer_eq (hid : b.InScope id) : b'.definer id = b.definer id := by
  rw [Block.definer, Block.definer, hr.value?_eq h hid]

/-- Values that are out of scope and stand in no list do not matter. -/
theorem Recovers.useDef : b'.UseDef [] where
  wellScoped e he := by
    rw [hr.scope] at he
    obtain ⟨hlt, hname⟩ := h.wellScoped e he
    refine ⟨Nat.lt_of_lt_of_le hlt hr.values.length_le, ?_⟩
    rw [nameOf, hr.value?_eq h (List.mem_map_of_mem he)]
    exact hname
  names := by
    rw [hr.scope]
    exact h.names
  distinct := by
    rw [hr.inputs, hr.results_eq]
    exact h.distinct
  origin id := by
    rw [hr.inScope_iff, hr.inputs, hr.results_eq]
    exact h.origin id
  free id hid := by
    rw [hr.inputs, List.append_nil] at hid
    have hin : b.InScope id := (h.origin id).mpr (by simp [hid])
    rw [hr.definer_eq h hin]
    exact h.free id (List.mem_append_left _ hid)
  defined k op hk id hid := by
    rw [hr.operations] at hk
    have hin : b.InScope id := (h.origin id).mpr (by simp [mem_results hk hid])
    rw [hr.definer_eq h hin]
    exact h.defined k op hk id hid
  operands k op hk := by
    rw [hr.operations] at hk ⊢
    rw [hr.inputs]
    exact h.operands k op hk
  uses id hid := by
    have hin := hr.inScope_iff.mp hid
    rw [usesOf, hr.value?_eq h hin, hr.operations]
    exact h.uses id hin
  opNames k op hk := by
    rw [hr.operations] at hk
    exact h.opNames k op hk

end

end

end Block

theorem Line.Runs.useDef {l : Line} {c : TypeContext} {b b' : Block} (hrun : l.Runs c b b')
    (hm : l.statement.Lawful l.kind) (hv : ∀ n ∈ l.statement.content.physical, Block.Visible n) (h : b.UseDef []) :
    b'.UseDef [] := by
  have front : (l.front c b).UseDef [] := h.mentionAll fun u hu => hv _ (List.of_mem_zip hu).1
  obtain ⟨n, hc⟩ := hrun.created
  refine front.createOperation (fun id hid => ?_) hc
  obtain ⟨x, hx, hxid⟩ := List.mem_map.mp hid
  obtain rfl := Option.some.inj hxid
  obtain ⟨m, hm', rfl⟩ := List.mem_map.mp hx
  exact Block.inScope_of_lookup (hrun.lookup_valueOf hm hv h.wellScoped m hm')

/-! ## What is read -/

namespace Parser

variable {env : ParserEnv} {expected : Option Kind} {s t : ParserState}

theorem useDef_instruction {n : Nat} (hk : ∀ x k, KindFor env.registry expected x k → k.Valid)
    (hv : VisibleTokens s.rest) (h : s.block.UseDef []) (hr : Yields (instruction env expected) s n t) :
    t.block.UseDef [] ∧ VisibleTokens t.rest := by
  obtain ⟨x, l, hs, -, hx, hrun, -, -⟩ := instruction_sound hk h.wellScoped hv hr
  have visible : ∀ n ∈ l.statement.content.physical, Block.Visible n := fun n hn =>
    hv.of_splits hs (List.mem_append_right _ (List.mem_cons_of_mem _ (hx.body.written hn)))
  exact ⟨hrun.useDef hx.body.lawful visible h, hv.sublist hs.sublist⟩

theorem useDef_firstInstructions {n : Nat} (hk : ∀ x k, env.registry.kind? x = some k → k.Valid)
    (hv : VisibleTokens s.rest) (h : s.block.UseDef []) (hr : Yields (firstInstructions env n) s () t) :
    t.block.UseDef [] := by
  induction n generalizing s with
  | zero =>
    obtain ⟨-, rfl⟩ := yields_pure.mp hr
    exact h
  | succ n ih =>
    rw [firstInstructions, yields_bind] at hr
    obtain ⟨m, u, hone, hr⟩ := hr
    obtain ⟨hu, hvu⟩ := useDef_instruction (show ∀ x k, KindFor env.registry none x k → k.Valid from hk) hv h hone
    exact ih hvu hu hr

theorem instructions_ok {fuel : Nat} (h : Yields (instructions env fuel) s () t) :
    ∃ n, Yields (firstInstructions env n) s () t := by
  induction fuel generalizing s with
  | zero => exact ⟨0, h⟩
  | succ fuel ih =>
    rw [instructions, yields_atEnd_bind, yields_ite] at h
    rcases h with ⟨-, h⟩ | ⟨-, h⟩
    · exact ⟨0, h⟩
    · obtain ⟨m, u, hone, h⟩ := yields_bind.mp h
      obtain ⟨n, hn⟩ := ih h
      exact ⟨n + 1, yields_bind.mpr ⟨m, u, hone, hn⟩⟩

def Returns {α : Type} (x : Except ParseFailure α) : Prop := ∀ f, x = .error f → ∃ e, f = .error e

theorem useDef_of_instruction (hk : ∀ x k, KindFor env.registry expected x k → k.Valid) (hv : VisibleTokens s.rest)
    (h : s.block.UseDef []) (hr : Returns (instruction env expected s).1) :
    (instruction env expected s).2.block.UseDef [] := by
  cases hi : instruction env expected s with
  | mk answer t =>
    rw [hi] at hr
    cases answer with
    | ok n => exact (useDef_instruction hk hv h hi).1
    | error f =>
      obtain ⟨e, rfl⟩ := hr f rfl
      exact (instruction_error hi).useDef h

theorem useDef_of_module (hk : ∀ x k, env.registry.kind? x = some k → k.Valid) (hv : VisibleTokens s.rest)
    (h : s.block.UseDef []) (hr : Returns (module env s).1) : (module env s).2.block.UseDef [] := by
  cases hm : module env s with
  | mk answer t =>
    rw [hm] at hr
    cases answer with
    | ok =>
      obtain ⟨n, hn⟩ := instructions_ok (show Yields (instructions env s.rest.length) s () t from hm)
      exact useDef_firstInstructions hk hv h hn
    | error f =>
      obtain ⟨e, rfl⟩ := hr f rfl
      obtain ⟨n, u, hfirst, hlast⟩ := instructions_error (show instructions env s.rest.length s = _ from hm)
      exact (instruction_error hlast).useDef (useDef_firstInstructions hk hv h hfirst)

end Parser

/-! ## What is built -/

structure BuildRequest.On (q : BuildRequest) (b : Block) : Prop where
  operands : ∀ id, some id ∈ q.operands → b.InScope id
  accessors : ∀ e ∈ q.accessors, ∀ id, Supplied.value id ∈ e.2 → b.InScope id
  angle : ∀ id, q.angle = .value id → b.InScope id

structure CallRequest.On (q : CallRequest) (b : Block) : Prop where
  arguments : ∀ id, some id ∈ q.arguments → b.InScope id
  accessors : ∀ lists, q.accessors = some lists → ∀ items ∈ lists, ∀ id, Supplied.value id ∈ items → b.InScope id

namespace Kind

variable {k : Kind} {b b' : Block} {P : Nat → Prop} {kind : String}

theorem eq_value_of_suppliedComponent {x : Supplied} {c : Component} {id : Nat}
    (h : suppliedComponent kind b x = .ok (c, some id)) : x = .value id := by
  unfold suppliedComponent at h
  split at h
  · split at h
    · cases h
      rfl
    · exact absurd h refuseShowing_ne
  · cases h
  · split at h
    · cases h
    · exact absurd h refuseShowing_ne
  · exact absurd h refuseShowing_ne

theorem references_suppliedComponents {items : List Supplied} {cs : List (Component × Option Nat)}
    (hP : ∀ id, Supplied.value id ∈ items → P id) (h : items.mapM (suppliedComponent kind b) = .ok cs) :
    ∀ id ∈ cs.filterMap (·.2), P id := by
  induction items generalizing cs with
  | nil =>
    cases h
    exact fun id hid => absurd hid List.not_mem_nil
  | cons item items ih =>
    obtain ⟨⟨c, r⟩, cs', hc, hcs, rfl⟩ := mapM_eq_ok_cons.mp h
    have rest := ih (fun id hid => hP id (List.mem_cons_of_mem _ hid)) hcs
    intro id hid
    obtain ⟨x, hx, hxid⟩ := List.mem_filterMap.mp hid
    rcases List.mem_cons.mp hx with rfl | hx
    · obtain rfl : r = some id := hxid
      obtain rfl := eq_value_of_suppliedComponent hc
      exact hP id List.mem_cons_self
    · exact rest id (List.mem_filterMap.mpr ⟨x, hx, hxid⟩)

theorem references_suppliedAccessor {items : List Supplied} {a : Accessors} {refs : List Nat}
    (hP : ∀ id, Supplied.value id ∈ items → P id) (h : suppliedAccessor kind b items = .ok (a, refs)) :
    ∀ id ∈ refs, P id := by
  unfold suppliedAccessor at h
  obtain ⟨cs, hcs, h⟩ := bind_eq_ok.mp h
  split at h
  · cases h
    exact references_suppliedComponents hP hcs
  · cases h

theorem operands_slotParts {accessors : List (String × List Supplied)} {ss : List Slot} {operands : List (Option Nat)}
    {absent : Bool} {parts : SlotParts} (hP : ∀ id, some id ∈ operands → P id)
    (hA : ∀ e ∈ accessors, ∀ id, Supplied.value id ∈ e.2 → P id)
    (h : slotParts kind b accessors ss operands absent = .ok parts) : ∀ id ∈ parts.operands, P id := by
  induction ss generalizing operands absent parts with
  | nil =>
    cases h
    exact fun id hid => absurd hid List.not_mem_nil
  | cons s ss ih =>
    simp only [slotParts] at h
    obtain ⟨main, hmain, h⟩ := bind_eq_ok.mp h
    obtain ⟨rfl, -, -⟩ := mainOperand_ok hmain
    -- operands are the main operand and the references of a slot, and those of the slots behind it
    have given : ∀ id ∈ operands.head?.join.toList, P id := by
      intro id hid
      cases operands with
      | nil => cases hid
      | cons o operands =>
        obtain rfl : o = some id := by simpa using hid
        exact hP id List.mem_cons_self
    have later : ∀ id, some id ∈ operands.drop 1 → P id := fun id hid => hP id (List.mem_of_mem_drop hid)
    by_cases hr : s.register = true
    · rw [if_pos hr] at h
      obtain ⟨⟨a, refs⟩, hacc, h⟩ := bind_eq_ok.mp h
      obtain ⟨rest, hrest, h⟩ := bind_eq_ok.mp h
      cases h
      have own : ∀ id ∈ refs, P id := by
        refine references_suppliedAccessor (fun id hid => ?_) hacc
        unfold accessorsFor at hid
        cases hf : accessors.find? (·.1 = s.name) with
        | none => rw [hf] at hid; cases hid
        | some e =>
          rw [hf] at hid
          exact hA e (List.mem_of_find?_eq_some hf) id hid
      intro id hid
      rcases List.mem_append.mp hid with hid | hid
      · rcases List.mem_append.mp hid with hid | hid
        · exact given id hid
        · exact own id hid
      · exact ih later hrest id hid
    · rw [if_neg hr] at h
      obtain ⟨rest, hrest, h⟩ := bind_eq_ok.mp h
      cases h
      intro id hid
      rcases List.mem_append.mp hid with hid | hid
      · exact given id hid
      · exact ih later hrest id hid

theorem useDef_build {q : BuildRequest} {n : Nat} (h : b.UseDef []) (hq : q.On b) (hb : k.build b q = (.ok n, b')) :
    b'.UseDef [] := by
  obtain ⟨s, hs, hc⟩ := append_ok hb
  refine h.createOperation (fun id hid => ?_) hc
  simp only [buildState] at hs
  split at hs
  · cases hs
  split at hs
  · cases hs
  obtain ⟨⟨⟩, -, hs⟩ := bind_eq_ok.mp hs
  obtain ⟨⟨tags, ids⟩, hangle, hs⟩ := bind_eq_ok.mp hs
  obtain ⟨a, -, -, rfl, hreference, -⟩ := suppliedAngle_ok hangle
  split at hs
  · cases hs
  obtain ⟨parts, hparts, hs⟩ := bind_eq_ok.mp hs
  cases hs
  obtain ⟨x, hx, hxid⟩ := List.mem_map.mp hid
  obtain rfl := Option.some.inj hxid
  rcases List.mem_append.mp hx with hx | hx
  · cases a with
    | reference i =>
      obtain rfl := List.mem_singleton.mp hx
      exact hq.angle x (hreference x rfl)
    | _ => cases hx
  · exact operands_slotParts hq.operands hq.accessors hparts x hx

theorem references_suppliedAccessors {lists : List (List Supplied)} {parts : List (Accessors × List Nat)}
    (hP : ∀ items ∈ lists, ∀ id, Supplied.value id ∈ items → P id)
    (h : lists.mapM (suppliedAccessor kind b) = .ok parts) : ∀ id ∈ parts.flatMap (·.2), P id := by
  induction lists generalizing parts with
  | nil =>
    cases h
    exact fun id hid => absurd hid List.not_mem_nil
  | cons items lists ih =>
    obtain ⟨⟨a, refs⟩, rest, ha, hrest, rfl⟩ := mapM_eq_ok_cons.mp h
    obtain ⟨first, later⟩ := List.forall_mem_cons.mp hP
    intro id hid
    rw [List.flatMap_cons, List.mem_append] at hid
    rcases hid with hid | hid
    · exact references_suppliedAccessor first ha id hid
    · exact ih later hrest id hid

theorem useDef_buildCall {q : CallRequest} {n : Nat} (h : b.UseDef []) (hq : q.On b)
    (hb : k.buildCall b q = (.ok n, b')) : b'.UseDef [] := by
  obtain ⟨s, hs, hc⟩ := append_ok hb
  refine h.createOperation (fun id hid => ?_) hc
  simp only [callState] at hs
  split at hs
  · cases hs
  split at hs
  · cases hs
  obtain ⟨parts, hparts, hs⟩ := bind_eq_ok.mp hs
  obtain ⟨⟨⟩, -, hs⟩ := bind_eq_ok.mp hs
  obtain ⟨m, -, hs⟩ := bind_eq_ok.mp hs
  split at hs
  · cases hs
  cases hs
  rcases List.mem_append.mp hid with hid | hid
  · exact hq.arguments id hid
  · obtain ⟨x, hx, hxid⟩ := List.mem_map.mp hid
    obtain rfl := Option.some.inj hxid
    refine references_suppliedAccessors (fun items hitems i hi => ?_) hparts x hx
    cases ha : q.accessors with
    | none =>
      rw [ha] at hitems
      obtain ⟨o, -, rfl⟩ := List.mem_map.mp hitems
      cases hi
    | some lists =>
      rw [ha] at hitems
      exact hq.accessors lists ha items hitems i hi

end Kind

/-! ## What is loaded -/

namespace Wire

variable {read : Json → Loader Attr} {b b' : Block} {c d : TypeContext}

theorem useDef_readInputs {js : List Json} (h : b.UseDef []) (hl : Loads (readInputs read b js) c b' d) :
    b'.UseDef [] := by
  induction js generalizing b c with
  | nil =>
    obtain ⟨rfl, rfl⟩ := loads_pure.mp hl
    exact h
  | cons j js ih =>
    simp only [readInputs, loads_bind, loads_change] at hl
    obtain ⟨_, _, -, _, _, -, _, _, -, _, _, -, ⟨id, b₁⟩, _, ⟨hadd, -⟩, hl⟩ := hl
    exact ih (h.addInput hadd) hl

theorem useDef_readOperation {j : Json} (h : b.UseDef []) (hl : Loads (readOperation read b j) c b' d) :
    b'.UseDef [] := by
  unfold readOperation at hl
  simp only [loads_bind] at hl
  obtain ⟨_, _, -, _, _, -, _, _, -, _, _, -, operands, _, hoperands, a, _, -, hl⟩ := hl
  have scope : ∀ id ∈ operands, b.InScope id :=
    hoperands.forall_mem fun _ _ _ _ hone => Block.inScope_of_inScope? (loads_operand.mp hone).2.1
  cases a with
  | obj entries =>
    simp only [loads_bind] at hl
    obtain ⟨_, _, -, _, _, -, _, _, -, _, _, -, _, _, -, hl⟩ := hl
    split at hl
    · next n b₁ hc =>
      obtain ⟨rfl, -⟩ := loads_pure.mp hl
      refine h.createOperation (fun id hid => ?_) hc
      obtain ⟨x, hx, hxid⟩ := List.mem_map.mp hid
      obtain rfl := Option.some.inj hxid
      exact scope x hx
    · exact absurd hl not_loads_throw
  | _ =>
    simp only [loads_bind] at hl
    obtain ⟨_, _, hl, -⟩ := hl
    exact absurd hl not_loads_throw

theorem useDef_readBlock {fields : List (String × Json)} (hl : Loads (readBlock read fields) c b d) : b.UseDef [] := by
  unfold readBlock at hl
  simp only [loads_bind] at hl
  obtain ⟨_, _, -, _, _, -, b₁, _, hinputs, _, _, -, _, _, -, hl⟩ := hl
  exact hl.foldlM (fun _ _ _ _ _ => useDef_readOperation) (useDef_readInputs .empty hinputs)

end Wire

/-! ## Blocks that are reached -/

/-- The block comes from the empty one, or from one that was loaded, by adding inputs, by reading instructions or
modules that stand in a text, with errors or without, and by building instructions on values in scope. -/
inductive Block.Reached : Block → Prop
  | empty : Reached .empty
  | loaded {read : Json → Wire.Loader Attr} {fields : List (String × Json)} {c d : TypeContext} {b : Block}
      (h : Wire.Loads (Wire.readBlock read fields) c b d) : Reached b
  | input {b b' : Block} {name : Option Label} {type : Attr} {id : Nat} (hb : Reached b)
      (h : b.addInput name type = .ok (id, b')) : Reached b'
  | instruction {s : ParserState} {env : ParserEnv} {expected : Option Kind} {text : String} {tokens : TokenStream}
      (hb : Reached s.block) (hk : ∀ x k, KindFor env.registry expected x k → k.Valid)
      (htext : TokenStream.ofText text = .ok tokens) (hs : s.rest <:+ tokens.tokens)
      (h : Parser.Returns (Parser.instruction env expected s).1) : Reached (Parser.instruction env expected s).2.block
  | module {s : ParserState} {env : ParserEnv} {text : String} {tokens : TokenStream}
      (hb : Reached s.block) (hk : ∀ x k, env.registry.kind? x = some k → k.Valid)
      (htext : TokenStream.ofText text = .ok tokens) (hs : s.rest <:+ tokens.tokens)
      (h : Parser.Returns (Parser.module env s).1) : Reached (Parser.module env s).2.block
  | built {b b' : Block} {k : Kind} {q : BuildRequest} {n : Nat} (hb : Reached b) (hq : q.On b)
      (h : k.build b q = (.ok n, b')) : Reached b'
  | called {b b' : Block} {k : Kind} {q : CallRequest} {n : Nat} (hb : Reached b) (hq : q.On b)
      (h : k.buildCall b q = (.ok n, b')) : Reached b'

theorem Block.Reached.useDef {b : Block} (h : b.Reached) : b.UseDef [] := by
  induction h with
  | empty => exact .empty
  | loaded h => exact Wire.useDef_readBlock h
  | input _ h ih => exact ih.addInput h
  | instruction _ hk htext hs h ih =>
    have visible := Reading.visible_of_spelled (lexes_of_ofText htext).2
    exact Parser.useDef_of_instruction hk (visible.sublist hs.sublist) ih h
  | module _ hk htext hs h ih =>
    have visible := Reading.visible_of_spelled (lexes_of_ofText htext).2
    exact Parser.useDef_of_module hk (visible.sublist hs.sublist) ih h
  | built _ hq h ih => exact Kind.useDef_build ih hq h
  | called _ hq h ih => exact Kind.useDef_buildCall ih hq h

/-- **Definitions and uses agree in every block that is reached**, whatever is added, read, built or loaded in
which order, and whatever instructions had errors in them. -/
theorem Block.ssa_of_reached {b : Block} (h : b.Reached) : b.Ssa := h.useDef.toSsa

/-- Reading a whole text as a module leads on, unless a literal is too long. -/
theorem Block.Reached.reading {b : Block} {env : ParserEnv} {text : String} {c : TypeContext} (hb : b.Reached)
    (hk : ∀ x k, env.registry.kind? x = some k → k.Valid) (h : Parser.Returns (Reading.module env text c b).answer) :
    (Reading.module env text c b).block.Reached := by
  unfold Reading.module Reading.run at *
  cases htext : TokenStream.ofText text with
  | error stray => exact hb
  | ok tokens =>
    rw [htext] at h
    exact .module (s := .start tokens c b) hb hk htext (List.suffix_refl _) h

def Block.recovered : Block := (Reading.module ⟨.standard, false⟩ brokenSecond .default .empty).block

/-- An instruction that is built on the value of the first one. -/
theorem Block.reached_ssa_recovered :
    ∃ b : Block, b.Reached ∧ b.Ssa ∧ b.operations.map (·.name) = ["op0", "op1"] ∧ b.usesOf 0 = [⟨1, none⟩] ∧
      b.scope.map (·.1.text?) = [some "%q"] := by
  have fails : isParseError (Reading.module ⟨.standard, false⟩ brokenSecond .default .empty).answer = true := by
    decide +kernel
  obtain ⟨e, he⟩ := exists_of_isParseError fails
  have start : Block.recovered.Reached := Block.Reached.empty.reading
    (fun x k hk => Registry.sound_standard.valid_of_kind? hk) fun f hf => ⟨e, Except.error.inj (hf.symm.trans he)⟩
  have inside : Block.recovered.InScope 0 := by
    have : Block.recovered.scope.map (·.2) = [0] := by decide +kernel
    rw [Block.InScope, this]
    exact List.mem_singleton.mpr rfl
  have on : (⟨[some 0], [], .attr .none, [], [], none⟩ : BuildRequest).On Block.recovered := by
    refine ⟨fun id hid => ?_, fun e he => absurd he List.not_mem_nil, fun id h => by cases h⟩
    obtain rfl : id = 0 := by simpa using hid
    exact inside
  obtain ⟨n, hn⟩ := exists_answer (x := Parser.flip.build Block.recovered ⟨[some 0], [], .attr .none, [], [], none⟩)
    (by decide +kernel)
  have reached := start.built on hn
  exact ⟨_, reached, ssa_of_reached reached, by decide +kernel, by decide +kernel, by decide +kernel⟩

end GateAsm
