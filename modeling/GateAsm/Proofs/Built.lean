import GateAsm.Proofs.Printing

/-!
# Records that are built

A successful request has content like an instruction that is read: operands that fill the slots or are
the arguments of a call, with references of type index in the brackets. The record is that of the content,
behind the tags that the caller gave.
-/

namespace GateAsm

def Content.Indexed (b : Block) (c : Content Nat) : Prop :=
  ∀ f ∈ c.operands, ∀ id ∈ f.references, (b.typeOf id).isIndex = true

theorem Content.Indexed.extend {b b' : Block} {c : Content Nat} (h : c.Indexed b) (hb : b.Extends b')
    (hc : ∀ id ∈ c.physical, id < b.values.length) : c.Indexed b' := by
  intro f hf id hid
  rw [hb.typeOf id (hc id (Content.mem_physical.mpr (.inr ⟨f, hf, List.mem_cons_of_mem _ hid⟩)))]
  exact h f hf id hid

theorem Content.physical_generic (a : AngleOf Nat) (fs : List (Filler Nat)) :
    (Content.mk (.generic a) fs).physical = a.references ++ fs.flatMap fun f => f.main :: f.references := by
  simp [physical, flagged, List.map_flatMap, Function.comp_def]

theorem Content.physical_call {ρ : Type} (callee : String) (n : Int) (fs : List (Filler ρ)) :
    (Content.mk (.call callee n) fs).physical = fs.map (·.main) ++ fs.flatMap Filler.references := by
  simp [physical, flagged, Function.comp_def]

/-! ## Tags -/

theorem Kind.free_of_checkTags {k : Kind} {attrs : List (String × Attr)} {x : Unit} (h : k.checkTags attrs = .ok x) :
    ∀ key ∈ attrs.map (·.1), key ∉ k.structuralTags := by
  simp only [checkTags] at h
  split at h
  · next hn =>
    intro key hkey
    have := List.filter_eq_nil_iff.mp (List.isEmpty_iff.mp hn) key hkey
    simpa using this
  · cases h

theorem Kind.addTags_eq {k : Kind} {attrs new : List (String × Attr)} (hn : (new.map (·.1)).Nodup)
    (hnew : ∀ key ∈ new.map (·.1), key ∈ k.structuralTags) (hfree : ∀ key ∈ attrs.map (·.1), key ∉ k.structuralTags) :
    addTags attrs new = attrs ++ new :=
  Attr.foldl_put ⟨hn, fun key hkey => ⟨List.not_mem_nil, fun hold => hfree key hold (hnew key hkey)⟩⟩

section
variable {k : Kind} {c : Content Nat} {user : List (String × Attr)} {results : List Nat} {name : String}

theorem Operation.Structured.of_built (hc : c.Fits k) (hfree : ∀ key ∈ user.map (·.1), key ∉ k.structuralTags) :
    (Operation.mk (.text k.name) c.physical results (user ++ c.structural k) name).Structured k c := by
  refine ⟨rfl, rfl, hc, fun key hkey => ?_⟩
  have : Attr.lookup key user = none := Attr.lookup_eq_none_iff.mpr fun h => hfree key h hkey
  rw [Operation.tag?, Attr.lookup_append, this, Option.none_or]

theorem Operation.Records.of_built (hc : c.Fits k) (hfree : ∀ key ∈ user.map (·.1), key ∉ k.structuralTags)
    (hn : (user.map (·.1)).Nodup) :
    (Operation.mk (.text k.name) c.physical results (user ++ c.structural k) name).Records k c user := by
  refine ⟨.of_built hc hfree, ?_, hn⟩
  have kept : user.filter (fun t => !k.structuralTags.contains t.1) = user :=
    List.filter_eq_self.mpr fun t ht => by simpa using hfree t.1 (List.mem_map_of_mem ht)
  have gone : (c.structural k).filter (fun t => !k.structuralTags.contains t.1) = [] :=
    List.filter_eq_nil_iff.mpr fun t ht => by
      simpa using Content.structural_reserved hc t.1 (List.mem_map_of_mem ht)
  rw [List.filter_append, kept, gone, List.append_nil]

end

/-! ## Accessors -/

namespace Kind

variable {kind : String} {b : Block}

theorem mapM_eq_ok_cons {ε α β : Type} {f : α → Except ε β} {x : α} {xs : List α} {ys : List β} :
    (x :: xs).mapM f = .ok ys ↔ ∃ y zs, f x = .ok y ∧ xs.mapM f = .ok zs ∧ ys = y :: zs := by
  simp only [List.mapM_cons, bind_eq_ok, pure_eq_ok, Except.ok.injEq]
  constructor
  · rintro ⟨y, hy, zs, hzs, rfl⟩
    exact ⟨y, zs, hy, hzs, rfl⟩
  · rintro ⟨y, zs, hy, hzs, rfl⟩
    exact ⟨y, hy, zs, hzs, rfl⟩

theorem suppliedComponent_ok {x : Supplied} {c : Component} {r : Option Nat}
    (h : suppliedComponent kind b x = .ok (c, r)) :
    ∃ p : Part Nat, p.component = c ∧ p.reference? = r ∧ ∀ id ∈ r, (b.typeOf id).isIndex = true := by
  unfold suppliedComponent at h
  split at h
  · next id =>
    split at h
    · next hi =>
      cases h
      exact ⟨.reference id, rfl, rfl, fun _ h => Option.some.inj h ▸ hi⟩
    · exact absurd h refuseShowing_ne
  · next n =>
    cases h
    exact ⟨.number n, rfl, rfl, nofun⟩
  · next n =>
    split at h
    · next d hd =>
      cases h
      unfold Component.ofInt at hd
      split at hd
      · cases hd
        exact ⟨.number n, rfl, rfl, nofun⟩
      · cases hd
    · exact absurd h refuseShowing_ne
  · exact absurd h refuseShowing_ne

theorem suppliedComponents_ok {items : List Supplied} {cs : List (Component × Option Nat)}
    (h : items.mapM (suppliedComponent kind b) = .ok cs) :
    ∃ ps : List (Part Nat), ps.length = items.length ∧ ps.map Part.component = cs.map (·.1) ∧
      ps.filterMap Part.reference? = cs.filterMap (·.2) ∧
      ∀ id ∈ ps.filterMap Part.reference?, (b.typeOf id).isIndex = true := by
  induction items generalizing cs with
  | nil => cases h; exact ⟨[], rfl, rfl, rfl, nofun⟩
  | cons x items ih =>
    obtain ⟨⟨c, r⟩, rest, hc, hrest, rfl⟩ := mapM_eq_ok_cons.mp h
    obtain ⟨p, rfl, rfl, hp⟩ := suppliedComponent_ok hc
    obtain ⟨ps, hlen, hcs, hrs, hi⟩ := ih hrest
    refine ⟨p :: ps, congrArg Nat.succ hlen, by rw [List.map_cons, List.map_cons, hcs], ?_, ?_⟩
    · rw [List.filterMap_cons, List.filterMap_cons, hrs]
    · intro id hid
      obtain ⟨q, hq, he⟩ := List.mem_filterMap.mp hid
      rcases List.mem_cons.mp hq with rfl | hq
      · exact hp id he
      · exact hi id (List.mem_filterMap.mpr ⟨q, hq, he⟩)

theorem suppliedAccessor_ok {items : List Supplied} {a : Accessors} {refs : List Nat}
    (h : suppliedAccessor kind b items = .ok (a, refs)) :
    ∃ ps : List (Part Nat), ps.length = items.length ∧ LegalParts ps ∧ accessorsOf ps = a ∧
      ps.filterMap Part.reference? = refs ∧ ∀ id ∈ refs, (b.typeOf id).isIndex = true := by
  unfold suppliedAccessor at h
  obtain ⟨cs, hcs, h⟩ := bind_eq_ok.mp h
  obtain ⟨ps, hlen, components, references, hi⟩ := suppliedComponents_ok hcs
  split at h
  · next a' ha =>
    cases h
    have ha : Accessors.ofComponents? (ps.map Part.component) = some a := by
      rw [components]
      unfold Accessors.ofComponents at ha
      split at ha
      · next hs => cases ha; exact hs
      · cases ha
    have same := Accessors.ofComponents?_eq_some_iff.mp ha
    refine ⟨ps, hlen, ⟨?_, ?_⟩, by rw [accessorsOf, ha]; rfl, references, references ▸ hi⟩
    · have := a.size_le
      rwa [same, List.length_map] at this
    · exact fun p hp => a.legal _ (same ▸ List.mem_map_of_mem hp)
  · cases h

/-! ## Slots -/

theorem mainOperand_ok {accessors : List (String × List Supplied)} {s : Slot} {absent : Bool} {given : Option Nat}
    {ids : List Nat} (h : mainOperand kind accessors s absent given = .ok ids) :
    ids = given.toList ∧ (given = none → s.optional = true ∧ accessorsFor accessors s = none) ∧
      (given.isSome = true → absent = false) := by
  unfold mainOperand at h
  cases given with
  | none =>
    simp only at h
    split at h
    · cases h
    split at h
    · cases h
    · next ho ha =>
      cases h
      exact ⟨rfl, fun _ => ⟨by simpa using ho, by simpa using ha⟩, nofun⟩
  | some id =>
    simp only at h
    split at h
    · cases h
    · next ha =>
      cases h
      exact ⟨rfl, nofun, fun _ => by simpa using ha⟩

theorem legalParts_nil {ρ : Type} : LegalParts ([] : List (Part ρ)) := ⟨Nat.zero_le _, nofun⟩

theorem accessorsOf_nil {ρ : Type} : accessorsOf ([] : List (Part ρ)) = .empty := rfl

theorem slotParts_cons {accessors : List (String × List Supplied)} {s : Slot} {ss : List Slot}
    {operands : List (Option Nat)} {absent : Bool} {parts : SlotParts}
    (h : slotParts kind b accessors (s :: ss) operands absent = .ok parts) :
    ∃ (ps : List (Part Nat)) (rest : SlotParts), LegalParts ps ∧ (s.register = false → ps = []) ∧
      (operands.head?.join = none → ps = [] ∧ s.optional = true) ∧
      (operands.head?.join.isSome = true → absent = false) ∧
      (∀ id ∈ ps.filterMap Part.reference?, (b.typeOf id).isIndex = true) ∧
      slotParts kind b accessors ss (operands.drop 1) (absent || operands.head?.join.isNone) = .ok rest ∧
      parts = ⟨(if s.register then [(s.accessorTag, .accessors (accessorsOf ps))] else []) ++ rest.tags,
        operands.head?.join.toList ++ ps.filterMap Part.reference? ++ rest.operands,
        operands.head?.join.toList.length ::
          ((if s.register then [(ps.filterMap Part.reference?).length] else []) ++ rest.sizes)⟩ := by
  simp only [slotParts] at h
  obtain ⟨main, hmain, h⟩ := bind_eq_ok.mp h
  obtain ⟨rfl, hnone, hsome⟩ := mainOperand_ok hmain
  cases hr : s.register with
  | true =>
    rw [if_pos hr] at h
    obtain ⟨⟨a, refs⟩, hacc, h⟩ := bind_eq_ok.mp h
    obtain ⟨rest, hrest, h⟩ := bind_eq_ok.mp h
    obtain ⟨ps, hlen, legal, rfl, rfl, hi⟩ := suppliedAccessor_ok hacc
    cases h
    refine ⟨ps, rest, legal, nofun, fun hg => ⟨?_, (hnone hg).1⟩, hsome, hi, hrest, rfl⟩
    rw [(hnone hg).2] at hlen
    exact List.length_eq_zero_iff.mp hlen
  | false =>
    rw [if_neg (by simp [hr])] at h
    obtain ⟨rest, hrest, h⟩ := bind_eq_ok.mp h
    cases h
    exact ⟨[], rest, legalParts_nil, fun _ => rfl, fun hg => ⟨rfl, (hnone hg).1⟩, hsome, nofun, hrest, by simp⟩

theorem slotParts_ok {accessors : List (String × List Supplied)} {ss : List Slot} {operands : List (Option Nat)}
    {absent : Bool} {parts : SlotParts} (h : slotParts kind b accessors ss operands absent = .ok parts) :
    ∃ fs : List (Filler Nat), FillSlots ss fs ∧ (absent = true → fs = []) ∧
    (∀ s ∈ ss.drop fs.length, s.optional = true) ∧
      (∀ f ∈ fs, ∀ id ∈ f.references, (b.typeOf id).isIndex = true) ∧ (∀ f ∈ fs, some f.main ∈ operands) ∧
      parts = ⟨slotTags ss fs, fs.flatMap fun f => f.main :: f.references, slotSizes ss fs⟩ := by
  induction ss generalizing operands absent parts with
  | nil =>
    cases h
    exact ⟨[], trivial, fun _ => rfl, nofun, nofun, nofun, rfl⟩
  | cons s ss ih =>
    obtain ⟨ps, rest, legal, plain, hnone, hsome, hi, hrest, rfl⟩ := slotParts_cons h
    obtain ⟨fs, fill, tail, hopt, hindex, given, rfl⟩ := ih hrest
    cases hg : operands.head?.join with
    | none =>
      -- behind an absent slot no operand comes any more
      obtain ⟨rfl, ho⟩ := hnone hg
      obtain rfl := tail (by rw [hg]; exact Bool.or_true _)
      refine ⟨[], trivial, fun _ => rfl, ?_, nofun, nofun, ?_⟩
      · intro x hx
        rcases List.mem_cons.mp hx with rfl | hx
        · exact ho
        · exact hopt x hx
      · cases hr : s.register <;> simp [slotTags, slotSizes, Slot.absentSizes, hr, accessorsOf_nil]
    | some id =>
      rw [hg] at hsome
      refine ⟨⟨id, ps⟩ :: fs, ⟨⟨legal, plain⟩, fill⟩, fun ha => ?_, hopt, List.forall_mem_cons.mpr ⟨hi, hindex⟩,
        List.forall_mem_cons.mpr ⟨?_, fun f hf => List.mem_of_mem_drop (given f hf)⟩, ?_⟩
      · rw [hsome rfl] at ha; cases ha
      · exact List.mem_of_mem_head? (Option.join_eq_some_iff.mp hg)
      · cases hr : s.register <;> simp [slotTags, slotSizes, hr, Filler.references, Filler.accessors]

/-! ## The generic form -/

theorem suppliedAngle_ok {k : Kind} {angle : Supplied} {tags : List (String × Attr)} {ids : List Nat}
    (h : k.suppliedAngle angle = .ok (tags, ids)) :
    ∃ a : AngleOf Nat, (k.rotation = false → a = .absent) ∧ tags = a.tags ∧ ids = a.references ∧
      (∀ id, a = .reference id → angle = .value id) ∧
      ∀ x, a = .literal x → x.isFinite = true ∧ ∃ v, angle = .attr v ∧ v.toReal = .ok x := by
  unfold suppliedAngle at h
  split at h
  · cases h
    exact ⟨.absent, fun _ => rfl, rfl, rfl, nofun, nofun⟩
  · cases h
  · next id hr =>
    cases h
    refine ⟨.reference id, fun hr' => absurd (hr.symm.trans hr') (by decide), rfl, rfl, fun _ h => ?_, nofun⟩
    cases h
    rfl
  · next a _ hr =>
    split at h
    · cases h
    · next x hreal =>
      split at h
      · next hx =>
        cases h
        refine ⟨.literal x, fun hr' => absurd (hr.symm.trans hr') (by decide), rfl, rfl, nofun, fun y hy => ?_⟩
        cases hy
        exact ⟨hx, a, rfl, hreal⟩
      · cases h

theorem leastOperands_le {k : Kind} {n : Nat} (h : ∀ s ∈ k.operandSlots.drop n, s.optional = true) :
    k.leastOperands ≤ n := by
  unfold leastOperands
  have none : (k.operandSlots.drop n).filter (!·.optional) = [] :=
    List.filter_eq_nil_iff.mpr fun s hs => by simp [h s hs]
  rw [← List.take_append_drop n k.operandSlots, List.filter_append, none, List.append_nil]
  exact Nat.le_trans (List.length_filter_le ..) (List.length_take_le ..)

/-- A record that is built in the generic form is that of content behind the tags of the caller. The angle and
the main operands are those that were handed in. -/
theorem buildState_ok {k : Kind} {b : Block} {r : BuildRequest} {s : OperationState} (hk : k.Valid)
    (h : k.buildState b r = .ok s) :
    ∃ (a : AngleOf Nat) (fs : List (Filler Nat)), (Content.mk (.generic a) fs).Fits k ∧
      (Content.mk (.generic a) fs).Indexed b ∧ (∀ id, a = .reference id → r.angle = .value id) ∧
      (∀ x, a = .literal x → x.isFinite = true ∧ ∃ v, r.angle = .attr v ∧ v.toReal = .ok x) ∧
      (∀ f ∈ fs, some f.main ∈ r.operands) ∧ (∀ key ∈ r.attrs.map (·.1), key ∉ k.structuralTags) ∧
      s = ⟨.text k.name, (Content.mk (.generic a) fs).physical.map some,
        r.attrs ++ (Content.mk (.generic a) fs).structural k, r.resultTypes⟩ := by
  simp only [buildState] at h
  split at h
  · cases h
  next hcall =>
  split at h
  · cases h
  obtain ⟨⟨⟩, hfree, h⟩ := bind_eq_ok.mp h
  obtain ⟨⟨tags, ids⟩, hangle, h⟩ := bind_eq_ok.mp h
  obtain ⟨a, hrot, rfl, rfl, hreference, hliteral⟩ := suppliedAngle_ok hangle
  split at h
  · cases h
  obtain ⟨parts, hparts, h⟩ := bind_eq_ok.mp h
  obtain ⟨fs, fill, -, hopt, hindex, given, rfl⟩ := slotParts_ok hparts
  have fits : (Content.mk (.generic a) fs).Fits k := ⟨by simpa using hcall, hrot, fill, leastOperands_le hopt⟩
  have free := free_of_checkTags hfree
  refine ⟨a, fs, fits, hindex, hreference, hliteral, given, free, (Except.ok.inj h).symm.trans ?_⟩
  have structural := addTags_eq (Content.nodup_structural hk) (Content.structural_reserved fits) free
  rw [← structural, Content.physical_generic]
  rfl

/-! ## Calls -/

def callTags (callee : Label) (n : Int) (fs : List (Filler Nat)) : List (String × Attr) :=
  [(calleeTag, .symbol callee), (countTag, .int n), (callAccessorsTag, .tuple (fs.map fun f => .accessors f.accessors)),
   (segmentSizesTag, segmentSizesAttr [fs.length, (fs.flatMap Filler.references).length])]

theorem structural_call (k : Kind) (callee : String) (n : Int) (fs : List (Filler Nat)) :
    (Content.mk (.call callee n) fs).structural k = callTags (.text callee) n fs := rfl

theorem lookup_callTags {k : Kind} {callee : Label} {n : Int} {fs : List (Filler Nat)} {attrs : List (String × Attr)}
    (hk : k.Valid) (hfits : (Content.mk (.call "" n) fs).Fits k)
    (hfree : ∀ key ∈ attrs.map (·.1), key ∉ k.structuralTags) :
    ∀ e ∈ callTags callee n fs, Attr.lookup e.1 (attrs ++ callTags callee n fs) = some e.2 := by
  have keys : (callTags callee n fs).map (·.1) = ((Content.mk (.call "" n) fs).structural k).map (·.1) := rfl
  intro e he
  have reserved := Content.structural_reserved hfits e.1 (keys ▸ List.mem_map_of_mem he)
  have fresh : Attr.lookup e.1 attrs = none := Attr.lookup_eq_none_iff.mpr fun h => hfree e.1 h reserved
  rw [Attr.lookup_append, fresh, Option.none_or]
  exact Attr.lookup_of_mem (keys ▸ Content.nodup_structural hk) he

theorem suppliedAccessors_ok {lists : List (List Supplied)} {parts : List (Accessors × List Nat)} {mains : List Nat}
    (h : lists.mapM (suppliedAccessor kind b) = .ok parts) (hlen : lists.length = mains.length) :
    ∃ fs : List (Filler Nat), fs.map (·.main) = mains ∧ (∀ f ∈ fs, LegalParts f.parts) ∧
      (∀ f ∈ fs, ∀ id ∈ f.references, (b.typeOf id).isIndex = true) ∧
      parts = fs.map fun f => (f.accessors, f.references) := by
  induction lists generalizing parts mains with
  | nil =>
    cases h
    exact ⟨[], (List.length_eq_zero_iff.mp hlen.symm).symm, nofun, nofun, rfl⟩
  | cons items lists ih =>
    obtain ⟨⟨a, refs⟩, rest, ha, hrest, rfl⟩ := mapM_eq_ok_cons.mp h
    obtain ⟨ps, -, legal, rfl, rfl, hi⟩ := suppliedAccessor_ok ha
    cases mains with
    | nil => cases hlen
    | cons m mains =>
      obtain ⟨fs, rfl, hlegal, hindex, rfl⟩ := ih hrest (Nat.succ.inj hlen)
      exact ⟨⟨m, ps⟩ :: fs, rfl, List.forall_mem_cons.mpr ⟨legal, hlegal⟩, List.forall_mem_cons.mpr ⟨hi, hindex⟩, rfl⟩

/-- A call that is built, with all its arguments, is the record of these behind the tags of the caller. The
arguments are those that were handed in. -/
theorem callState_ok {k : Kind} {b : Block} {r : CallRequest} {s : OperationState} {operands : List Nat}
    (h : k.callState b r = .ok s) (hpresent : s.operands = operands.map some) :
    ∃ (n : Int) (fs : List (Filler Nat)), k.callForm = true ∧ r.count.toInt = .ok n ∧
      r.arguments = fs.map (fun f => some f.main) ∧ (∀ f ∈ fs, LegalParts f.parts) ∧ fs.length < segmentLimit ∧
      (fs.flatMap Filler.references).length < segmentLimit ∧
      (∀ f ∈ fs, ∀ id ∈ f.references, (b.typeOf id).isIndex = true) ∧
      (∀ key ∈ r.attrs.map (·.1), key ∉ k.structuralTags) ∧ operands = fs.map (·.main) ++ fs.flatMap Filler.references ∧
      s = ⟨.text k.name, operands.map some, r.attrs ++ callTags r.callee n fs, [r.resultType]⟩ := by
  simp only [callState] at h
  split at h
  · cases h
  next hcall =>
  split at h
  · cases h
  next hlen =>
  obtain ⟨parts, hparts, h⟩ := bind_eq_ok.mp h
  obtain ⟨⟨⟩, hfree, h⟩ := bind_eq_ok.mp h
  obtain ⟨n, hn, h⟩ := bind_eq_ok.mp h
  split at h
  · cases h
  next hsmall =>
  obtain rfl := Except.ok.inj h
  -- no argument is missing, since none of the operands is
  obtain ⟨mains, others, hops, hmains, hothers⟩ := List.append_eq_map_iff.mp hpresent
  have lengths : (r.accessors.getD (r.arguments.map fun _ => [])).length = mains.length := by
    rw [bne_iff_ne, ne_eq, Decidable.not_not] at hlen
    rw [hlen, ← hmains, List.length_map]
  obtain ⟨fs, rfl, legal, hindex, rfl⟩ := suppliedAccessors_ok hparts lengths
  have call : k.callForm = true := by simpa using hcall
  have free := free_of_checkTags hfree
  have references : (fs.map fun f => (f.accessors, f.references)).flatMap (·.2) = fs.flatMap Filler.references := by
    rw [List.flatMap_map]
  have arguments : r.arguments.length = fs.length := by rw [← hmains, List.length_map, List.length_map]
  have small : fs.length < segmentLimit ∧ (fs.flatMap Filler.references).length < segmentLimit := by
    rw [references, arguments] at hsmall
    simpa using hsmall
  obtain rfl : others = fs.flatMap Filler.references := by
    rw [references] at hothers
    exact (List.map_inj_right fun _ _ => Option.some.inj).mp hothers
  have fits : (Content.mk (.call "" n) fs).Fits k := ⟨call, legal, small⟩
  have tags : addTags r.attrs (callTags r.callee n fs) = r.attrs ++ callTags r.callee n fs :=
    addTags_eq (by simp [callTags, calleeTag, countTag, callAccessorsTag, segmentSizesTag])
      (Content.structural_reserved fits) free
  have count : r.count.toInt = .ok n := by
    cases hc : r.count.toInt with
    | error e => rw [hc] at hn; cases hn
    | ok m => rw [hc] at hn; cases hn; rfl
  refine ⟨n, fs, call, count, by rw [← hmains, List.map_map]; rfl, legal, small.1, small.2, hindex, free, hops, ?_⟩
  rw [← tags, ← hpresent]
  simp only [references, arguments, List.map_map]
  rfl

end Kind

end GateAsm
