import GateAsm.Proofs.Repeated

/-!
# Blocks that are built

A block can be built from the empty one by adding inputs and building instructions on its values. Each of its
values is then an input or a result of one operation, and operands come from inputs or from operations before.
-/

namespace GateAsm

/-! ## Requests -/

/-- A request for an instruction in the generic form that can be written: its operands are values of the block,
its types and tags can be written, and results have names of values or none. -/
structure BuildRequest.Writable (b : Block) (q : BuildRequest) : Prop where
  operands : ∀ id, some id ∈ q.operands → id < b.values.length
  angle : ∀ id, q.angle = .value id → id < b.values.length
  number : ∀ v x, q.angle = .attr v → v.toReal = .ok x → x.bits < 2 ^ 64
  tags : WritableTags q.attrs
  keys : (q.attrs.map (·.1)).Nodup
  results : ∀ v ∈ q.resultTypes, ∃ t : Ty, v = .type t ∧ t.Readable
  names : ∀ ls, q.resultNames = some ls → ∀ l, some l ∈ ls → ∃ n, l = .text n ∧ IsValueName n

structure CallRequest.Writable (b : Block) (q : CallRequest) : Prop where
  arguments : ∀ id, some id ∈ q.arguments → id < b.values.length
  callee : ∃ n, q.callee = .text n ∧ IsName n
  count : ∀ n, q.count.toInt = .ok n → FewDigits n
  tags : WritableTags q.attrs
  keys : (q.attrs.map (·.1)).Nodup
  result : ∃ t : Ty, q.resultType = .type t ∧ t.Readable
  name : ∀ l, q.resultName = some l → ∃ n, l = .text n ∧ IsValueName n

/-- The block comes from the empty one by adding inputs and by building instructions of registered kinds. -/
inductive Block.Assembled (r : Registry) : Block → Prop
  | empty : Assembled r .empty
  | input {b b' : Block} {n : String} {t : Ty} {id : Nat} (hb : Assembled r b) (hn : IsValueName n) (ht : t.Readable)
      (hadd : b.addInput (some (.text n)) (.type t) = .ok (id, b')) : Assembled r b'
  | built {b b' : Block} {k : Kind} {q : BuildRequest} {n : Nat} (hb : Assembled r b) (hk : r.kind? k.name = some k)
      (hname : IsName k.name) (hq : q.Writable b) (hbuilt : k.build b q = (.ok n, b')) : Assembled r b'
  | called {b b' : Block} {k : Kind} {q : CallRequest} {n : Nat} (hb : Assembled r b) (hk : r.kind? k.name = some k)
      (hname : IsName k.name) (hq : q.Writable b) (hbuilt : k.buildCall b q = (.ok n, b')) : Assembled r b'

/-- The operation is the record of content that can be written once its operands have names. -/
structure Block.Records (r : Registry) (b : Block) (op : Operation) (k : Kind) (c : Content Nat)
    (user : List (String × Attr)) : Prop extends b.Holds k op c user where
  registered : r.kind? k.name = some k
  mnemonic : IsName k.name
  head : ∀ f : Nat → String, (∀ id ∈ c.physical, IsValueName (f id)) → (c.map f).head.Writable
  tags : WritableTags user

/-- The values of the block are its inputs and the results of its operations, each once; operands come from
inputs or from operations before. -/
structure Block.Orderly (r : Registry) (b : Block) : Prop where
  wellScoped : b.WellScoped
  typed : b.Typed
  parts : (b.inputs ++ b.operations.flatMap (·.results)).Perm (List.range b.values.length)
  ordered : ∀ ops op, ops ++ [op] <+: b.operations → ∀ id ∈ op.operands, id ∈ b.inputs ++ ops.flatMap (·.results)
  named : ∀ id < b.values.length, (∃ n, IsValueName n ∧ b.lookup n = some id) ∨
    id ∉ b.inputs ∧ ∃ s, b.nameOf id = .text (anonymousMark ++ s)
  unused : ∀ id < b.values.length, b.isUnused id = true ↔ ∀ op ∈ b.operations, id ∉ op.operands
  made : ∀ op ∈ b.operations, ∃ k c user, b.Records r op k c user

section
variable {r : Registry} {b b' : Block} {op : Operation} {k : Kind} {c : Content Nat} {user : List (String × Attr)}

theorem Block.Records.extend (h : b.Records r op k c user) (hb : b.Extends b') : b'.Records r op k c user :=
  ⟨h.toHolds.extend hb, h.registered, h.mnemonic, h.head, h.tags⟩

namespace Block.Orderly

theorem part_lt (h : b.Orderly r) {id : Nat} (hid : id ∈ b.inputs ++ b.operations.flatMap (·.results)) :
    id < b.values.length := List.mem_range.mp (h.parts.mem_iff.mp hid)

theorem input_lt (h : b.Orderly r) {id : Nat} (hid : id ∈ b.inputs) : id < b.values.length :=
  h.part_lt (List.mem_append_left _ hid)

theorem result_lt (h : b.Orderly r) (hop : op ∈ b.operations) {id : Nat} (hid : id ∈ op.results) :
    id < b.values.length :=
  h.part_lt (List.mem_append_right _ (List.mem_flatMap.mpr ⟨op, hop, hid⟩))

theorem operand_lt (h : b.Orderly r) (hop : op ∈ b.operations) {id : Nat} (hid : id ∈ op.operands) :
    id < b.values.length := by
  obtain ⟨ops, rest, hops⟩ := List.append_of_mem hop
  have front : ops ++ [op] <+: b.operations := ⟨rest, by rw [hops]; simp⟩
  refine h.part_lt ?_
  rcases List.mem_append.mp (h.ordered ops op front id hid) with hid | hid
  · exact List.mem_append_left _ hid
  · obtain ⟨o, ho, hid⟩ := List.mem_flatMap.mp hid
    exact List.mem_append_right _ (List.mem_flatMap.mpr ⟨o, hops ▸ List.mem_append_left _ ho, hid⟩)

theorem empty : Block.empty.Orderly r where
  wellScoped := wellScoped_empty
  typed := nofun
  parts := .refl _
  ordered ops op h := by
    have := List.prefix_nil.mp h
    simp at this
  named := nofun
  unused := nofun
  made := nofun

theorem withInput {n : String} {t : Ty} (h : b.Orderly r) (hn : IsValueName n) (hfree : b.lookup n = none)
    (ht : t.Readable) :
    (b.withInput n t).Orderly r where
  wellScoped := wellScoped_withInput h.wellScoped
  typed := h.typed.withInput ht
  parts := by
    rw [length_withInput, List.range_succ]
    show ((b.inputs ++ [b.values.length]) ++ b.operations.flatMap (·.results)).Perm _
    rw [List.append_assoc]
    refine (List.Perm.append_left _ List.perm_append_comm).trans ?_
    rw [← List.append_assoc]
    exact h.parts.append_right _
  ordered ops op hops id hid := by
    rcases List.mem_append.mp (h.ordered ops op hops id hid) with hid | hid
    · exact List.mem_append_left _ (List.mem_append_left _ hid)
    · exact List.mem_append_right _ hid
  named id hid := by
    rw [length_withInput] at hid
    rcases Nat.lt_succ_iff_lt_or_eq.mp hid with hlt | rfl
    · refine (h.named id hlt).imp ?_ ?_
      · rintro ⟨m, hm, hl⟩
        exact ⟨m, hm, by rw [lookup_withInput hm.visible, hl]; rfl⟩
      · rintro ⟨hout, s, hs⟩
        refine ⟨fun hin => ?_, s, (extends_withInput.nameOf id hlt).trans hs⟩
        rcases List.mem_append.mp hin with hin | hin
        · exact hout hin
        · exact Nat.ne_of_lt hlt (List.mem_singleton.mp hin)
    · exact .inl ⟨n, hn, by rw [lookup_withInput hn.visible, hfree]; simp⟩
  unused id hid := by
    rw [isUnused_withInput]
    show _ ↔ ∀ op ∈ b.operations, id ∉ op.operands
    rcases Nat.lt_succ_iff_lt_or_eq.mp (length_withInput ▸ hid) with hlt | rfl
    · exact h.unused id hlt
    · refine iff_of_true ?_ fun op hop hid => Nat.lt_irrefl _ (h.operand_lt hop hid)
      rw [isUnused, value?, List.getElem?_eq_none (Nat.le_refl _)]
      rfl
  made op hop := by
    obtain ⟨k, c, user, hmade⟩ := h.made op hop
    exact ⟨k, c, user, hmade.extend extends_withInput⟩

theorem creates {s : OperationState} {labels : List (Option Label)} {operands : List Nat} (h : b.Orderly r)
    (hc : b.Creates s labels operands b') (hops : ∀ id ∈ operands, id < b.values.length)
    (hlabels : ∀ l, some l ∈ labels → ∃ n, l = .text n ∧ IsValueName n)
    (hresults : ∀ v ∈ s.resultTypes, ∃ t : Ty, v = .type t ∧ t.Readable)
    (hmade : ∀ op, b'.operations = b.operations ++ [op] → ∃ k c user, b'.Records r op k c user) : b'.Orderly r := by
  obtain ⟨name, hnew⟩ := hc.operations
  have flat : b'.operations.flatMap (·.results) =
      b.operations.flatMap (·.results) ++ List.range' b.values.length s.resultTypes.length := by
    rw [hnew, List.flatMap_append, List.flatMap_singleton]
  refine ⟨hc.wellScoped h.wellScoped, hc.typed h.typed hresults, ?_, ?_, ?_, ?_, ?_⟩
  -- inputs and results are numbered in the order in which they come
  · rw [hc.inputs, flat, hc.length, ← List.append_assoc, List.range_add, ← List.range'_eq_map_range]
    exact h.parts.append_right _
  · intro ops op hprefix id hid
    rw [hc.inputs]
    rw [hnew, List.prefix_concat_iff] at hprefix
    rcases hprefix with hlast | hprefix
    · obtain ⟨rfl, rfl⟩ := List.append_inj' hlast rfl |>.imp_right (List.cons.inj · |>.1)
      exact h.parts.mem_iff.mpr (List.mem_range.mpr (hops id hid))
    · exact h.ordered ops op hprefix id hid
  · intro id hid
    rw [hc.inputs]
    rcases hc.result hid with hlt | ⟨i, type, label, rfl, -, hlabel, -, hname⟩
    · refine (h.named id hlt).imp ?_ ?_
      · rintro ⟨n, hn, hl⟩
        exact ⟨n, hn, (hc.lookup n hn.visible id).mpr (.inl hl)⟩
      · rintro ⟨hout, s, hs⟩
        exact ⟨hout, s, (hc.extends_.nameOf id hlt).trans hs⟩
    · cases label with
      | none => exact .inr ⟨fun hin => absurd (h.input_lt hin) (Nat.not_lt.mpr (Nat.le_add_right _ _)), hname⟩
      | some l =>
        obtain ⟨n, rfl, hn⟩ := hlabels l (List.mem_of_getElem? hlabel)
        exact .inl ⟨n, hn, (hc.lookup n hn.visible _).mpr (.inr ⟨i, hlabel, rfl⟩)⟩
  · intro id hid
    rw [hc.unused id hid, Bool.and_eq_true, Bool.not_eq_true', List.contains_eq_mem, decide_eq_false_iff_not, hnew,
      List.forall_mem_append, List.forall_mem_singleton]
    refine and_congr_left fun _ => ?_
    rcases Nat.lt_or_ge id b.values.length with hlt | hge
    · exact h.unused id hlt
    · refine iff_of_true ?_ fun op hop hid => absurd (h.operand_lt hop hid) (Nat.not_lt.mpr hge)
      rw [isUnused, value?, List.getElem?_eq_none hge]
      rfl
  · intro op hop
    rw [hnew, List.mem_append, List.mem_singleton] at hop
    rcases hop with hop | rfl
    · obtain ⟨k, c, user, hrec⟩ := h.made op hop
      exact ⟨k, c, user, hrec.extend hc.extends_⟩
    · exact hmade _ hnew

end Block.Orderly

/-! ## What is built -/

theorem Attr.isIndex_lt {id : Nat} (h : (b.typeOf id).isIndex = true) : id < b.values.length := by
  rcases Nat.lt_or_ge id b.values.length with hid | hid
  · exact hid
  · rw [Block.typeOf, Block.value?, List.getElem?_eq_none hid] at h
    cases h

theorem Block.Orderly.built {q : BuildRequest} {n : Nat} (h : b.Orderly r) (hk : k.Valid)
    (hreg : r.kind? k.name = some k)
    (hname : IsName k.name) (hq : q.Writable b) (hbuilt : k.build b q = (.ok n, b')) : b'.Orderly r := by
  obtain ⟨s, hs, hc⟩ := Kind.append_ok hbuilt
  obtain ⟨a, fs, fits, hindex, hreference, hliteral, given, free, rfl⟩ := Kind.buildState_ok hk hs
  obtain ⟨-, operands, hc⟩ := Block.createOperation_ok hc
  obtain rfl : operands = (Content.mk (.generic a) fs).physical :=
    ((List.map_inj_right fun _ _ => Option.some.inj).mp hc.present).symm
  refine h.creates hc (fun id hid => ?_) (fun l hl => ?_) hq.results fun op hops => ?_
  · rcases Content.mem_physical.mp hid with ⟨a', ha, hid⟩ | ⟨f, hf, hid⟩
    · cases ha
      cases a with
      | reference x =>
        obtain rfl := List.mem_singleton.mp hid
        exact hq.angle id (hreference id rfl)
      | _ => cases hid
    · rcases List.mem_cons.mp hid with rfl | hid
      · exact hq.operands _ (given f hf)
      · exact Attr.isIndex_lt (hindex f hf id hid)
  · cases hnames : q.resultNames with
    | none => simp [hnames] at hl
    | some ls => exact hq.names ls hnames l (by simpa [hnames] using hl)
  · obtain ⟨name, hops'⟩ := hc.operations
    obtain rfl := last_eq hops hops'
    refine ⟨k, _, q.attrs, ⟨⟨.of_built fits free hq.keys,
      fun f hf id hid => Kind.isIndex_extend hc.extends_ (hindex f hf id hid), fun hcall => ?_⟩,
      hreg, hname, fun f hf => ?_, hq.tags⟩⟩
    · exact absurd (fits.1.symm.trans hcall) (by decide)
    · cases a with
      | absent => trivial
      | literal x =>
        obtain ⟨finite, v, hv, hx⟩ := hliteral x rfl
        exact Double.readsBack_iff.mpr ⟨finite, hq.number v x hv hx⟩
      | reference id => exact hf id (Content.mem_physical.mpr (.inl ⟨_, rfl, List.mem_cons_self⟩))

theorem Block.Orderly.called {q : CallRequest} {n : Nat} (h : b.Orderly r) (hreg : r.kind? k.name = some k)
    (hname : IsName k.name) (hq : q.Writable b) (hbuilt : k.buildCall b q = (.ok n, b')) : b'.Orderly r := by
  obtain ⟨s, hs, hc⟩ := Kind.append_ok hbuilt
  obtain ⟨-, operands, hc⟩ := Block.createOperation_ok hc
  obtain ⟨m, fs, hcall, hcount, given, hlegal, small, small', hindex, free, rfl, rfl⟩ := Kind.callState_ok hs hc.present
  obtain ⟨callee, hcallee, named⟩ := hq.callee
  have fits : (Content.mk (.call callee m) fs).Fits k := ⟨hcall, hlegal, small, small'⟩
  refine h.creates hc (fun id hid => ?_) (fun l hl => ?_) (List.forall_mem_singleton.mpr hq.result) fun op hops => ?_
  · rcases List.mem_append.mp hid with hid | hid
    · obtain ⟨f, hf, rfl⟩ := List.mem_map.mp hid
      exact hq.arguments _ (given ▸ List.mem_map_of_mem hf)
    · obtain ⟨f, hf, hid⟩ := List.mem_flatMap.mp hid
      exact Attr.isIndex_lt (hindex f hf id hid)
  · cases hresult : q.resultName with
    | none => simp [hresult] at hl
    | some l' => exact hq.name l (by simpa [hresult, eq_comm] using hl)
  · obtain ⟨name, hops'⟩ := hc.operations
    obtain rfl := last_eq hops hops'
    refine ⟨k, ⟨.call callee m, fs⟩, q.attrs, ⟨⟨?_, fun f hf id hid =>
      Kind.isIndex_extend hc.extends_ (hindex f hf id hid),
      fun _ => List.length_range'⟩, hreg, hname, fun f hf => ⟨named, hq.count m hcount⟩, hq.tags⟩⟩
    rw [hcallee, ← Kind.structural_call k, ← Content.physical_call callee m]
    exact .of_built fits free hq.keys

theorem Block.Assembled.orderly (hr : r.Sound) (h : b.Assembled r) : b.Orderly r := by
  induction h with
  | empty => exact .empty
  | @input b b' n t id hb hn ht hadd ih =>
    have hfree : b.inScope? (.text n) = none := by
      cases hs : b.inScope? (.text n) with
      | none => rfl
      | some x => simp [addInput, addValue, Label.isKey, hs, Except.map] at hadd
    rw [addInput_text hfree] at hadd
    cases hadd
    exact ih.withInput hn ((lookup_eq hn.visible).trans hfree) ht
  | built hb hk hname hq hbuilt ih => exact ih.built (hr.valid_of_kind? hk) hk hname hq hbuilt
  | called hb hk hname hq hbuilt ih => exact ih.called hk hname hq hbuilt

end

end GateAsm
