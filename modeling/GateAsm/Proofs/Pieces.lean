import GateAsm.Block.Printer
import GateAsm.Proofs.Built
import GateAsm.Proofs.Verdict

/-!
# Verified operations as they are printed

The text of an operation shows operands in between words. Where it shows which operand follows from the
assignment of values that the operation is the flattening of, and not from the names. So an operation that
its kind accepts is printed under all names that are texts, with every operand in its place
(`Block.printOperation_of_verify`).
-/

namespace GateAsm

/-! ## Pieces -/

inductive Piece
  | words (s : String)
  | operand (id : Nat)

namespace Piece

def text (shown : Nat → Label) : Piece → String
  | words s => s
  | operand id => (shown id).display

def line (shown : Nat → Label) : List Piece → String
  | [] => ""
  | p :: ps => p.text shown ++ line shown ps

def ids : List Piece → List Nat
  | [] => []
  | words _ :: ps => ids ps
  | operand id :: ps => id :: ids ps

def commas : List Piece → List Piece
  | [] => []
  | [p] => [p]
  | p :: q :: ps => p :: words ", " :: commas (q :: ps)

def ofComponents : List Component → List Nat → List Piece
  | .dynamic :: cs, id :: ids => operand id :: ofComponents cs ids
  | .constant n :: cs, ids => words (toString n) :: ofComponents cs ids
  | _, _ => []

def ofAccessors (a : Accessors) (ids : List Nat) : List Piece :=
  if a.components.isEmpty then [] else words "[" :: commas (ofComponents a.components ids) ++ [words "]"]

def ofSlots : (mark : String) → List SlotChoice → List Piece
  | _, [] => []
  | mark, g :: gs => match g.main with
    | none => ofSlots mark gs
    | some id => words mark :: operand id :: ofAccessors g.accessors g.references ++ ofSlots ", " gs

def ofArgument (a : ArgumentChoice) : List Piece :=
  words ", " :: operand a.main :: ofAccessors a.accessors a.references

section
variable {shown : Nat → Label} {b : Block} {op : Operation}

@[simp]
theorem line_append (ps qs : List Piece) : line shown (ps ++ qs) = line shown ps ++ line shown qs := by
  induction ps with
  | nil => simp [line]
  | cons p ps ih => simp [line, ih, String.append_assoc]

theorem line_commas (ps : List Piece) : line shown (commas ps) = ", ".intercalate (ps.map (text shown)) := by
  induction ps with
  | nil => rfl
  | cons p ps ih =>
    cases ps with
    | nil => simp [commas, line]
    | cons q ps =>
      rw [commas, line, line, ih]
      simp [text, String.append_assoc]

@[simp]
theorem ids_append (ps qs : List Piece) : ids (ps ++ qs) = ids ps ++ ids qs := by
  induction ps with
  | nil => rfl
  | cons p ps ih => cases p <;> simp [ids, ih]

@[simp]
theorem ids_commas (ps : List Piece) : ids (commas ps) = ids ps := by
  induction ps with
  | nil => rfl
  | cons p ps ih =>
    cases ps with
    | nil => rfl
    | cons q ps => cases p <;> simp [commas, ids, ih]

theorem ids_ofComponents {cs : List Component} {rs : List Nat} (h : rs.length = cs.count .dynamic) :
    ids (ofComponents cs rs) = rs := by
  induction cs generalizing rs with
  | nil => rw [List.length_eq_zero_iff.mp h]; rfl
  | cons c cs ih =>
    cases c with
    | dynamic =>
      cases rs with
      | nil => simp at h
      | cons r rs => rw [ofComponents, ids, ih (by simpa using h)]
    | constant n => rw [ofComponents, ids, ih (by simpa using h)]

theorem ids_ofAccessors {a : Accessors} {rs : List Nat} (h : rs.length = a.dynamicCount) :
    ids (ofAccessors a rs) = rs := by
  unfold ofAccessors
  by_cases ha : a.components = []
  · have : rs = [] := List.length_eq_zero_iff.mp (by rw [h, Accessors.dynamicCount, ha]; rfl)
    simp [ha, this, ids]
  · simp [ha, ids, ids_ofComponents h]

theorem ids_ofSlots {ss : List Slot} {gs : List SlotChoice} (h : Paired (SlotChoice.Legal b op) ss gs) (mark : String) :
    ids (ofSlots mark gs) = gs.flatMap SlotChoice.operands := by
  induction gs generalizing ss mark with
  | nil => rfl
  | cons g gs ih =>
    cases ss with
    | nil => cases h
    | cons s ss =>
      obtain ⟨here, rest⟩ := h
      rw [ofSlots, List.flatMap_cons, SlotChoice.operands]
      cases hg : g.main with
      | none => simp [here.absent hg, ih rest]
      | some id => simp [ids, ids_ofAccessors here.count, ih rest]

theorem ids_ofArguments {as : List ArgumentChoice} (h : ∀ a ∈ as, a.Legal b) :
    ids (as.flatMap ofArgument) = as.flatMap fun a => a.main :: a.references := by
  induction as with
  | nil => rfl
  | cons a as ih =>
    have here := h a List.mem_cons_self
    have rest := ih fun x hx => h x (List.mem_cons_of_mem _ hx)
    simp [ofArgument, ids, ids_ofAccessors here.count, rest]

end

end Piece

/-! ## The printer -/

theorem SlotChoice.headD_sizes (s : Slot) (g : SlotChoice) (ns : List Nat) :
    ((g.sizes s ++ ns).map Int.ofNat).headD 0 = Int.ofNat g.main.toList.length := by
  cases hs : s.register <;> simp [SlotChoice.sizes, hs]

theorem SlotChoice.drop_sizes (s : Slot) (g : SlotChoice) (ns : List Nat) :
    ((g.sizes s ++ ns).map Int.ofNat).drop (Kind.slotSegments s) = ns.map Int.ofNat := by
  cases hs : s.register <;> simp [SlotChoice.sizes, Kind.slotSegments, hs]

namespace Printer

open Piece (line ofComponents ofAccessors ofSlots ofArgument)

variable {shown : Nat → Label} {env : PrintEnv} {b : Block} {op : Operation}

def Named (shown : Nat → Label) (ids : List Nat) : Prop := ∀ id ∈ ids, ∃ n, shown id = .text n

theorem named_append {ids rs : List Nat} : Named shown (ids ++ rs) ↔ Named shown ids ∧ Named shown rs :=
  List.forall_mem_append

theorem named_cons {id : Nat} {ids : List Nat} :
    Named shown (id :: ids) ↔ (∃ n, shown id = .text n) ∧ Named shown ids :=
  List.forall_mem_cons

def label (shown : Nat → Label) : Piece → Label
  | .words s => .text s
  | .operand id => shown id

theorem texts_iff {labels : List Label} {ts : List String} : texts labels = .ok ts ↔ labels = ts.map .text := by
  have found : labels.mapM Label.text? = some ts ↔ labels = ts.map .text := by
    induction labels generalizing ts with
    | nil => cases ts <;> simp
    | cons l labels ih =>
      rw [List.mapM_cons]
      cases l with
      | data j => cases ts <;> simp [Label.text?]
      | text s =>
        cases ts with
        | nil => simp [Label.text?, Option.bind_eq_some_iff]
        | cons t ts => simp [Label.text?, Option.bind_eq_some_iff, ih, and_comm]
  rw [← found]
  unfold texts
  cases labels.mapM Label.text? <;> simp

theorem map_label_iff {ps : List Piece} {ts : List String} :
    ps.map (label shown) = ts.map .text ↔ Named shown (Piece.ids ps) ∧ ts = ps.map (Piece.text shown) := by
  induction ps generalizing ts with
  | nil => cases ts <;> simp [Piece.ids, Named]
  | cons p ps ih =>
    cases ts with
    | nil => simp
    | cons t ts =>
      rw [List.map_cons, List.map_cons, List.map_cons, List.cons.injEq, ih, List.cons.injEq]
      cases p with
      | words s => simp [label, Piece.text, Piece.ids, eq_comm, and_left_comm]
      | operand id =>
        rw [Piece.ids, named_cons]
        constructor
        · rintro ⟨here, named, rest⟩
          have here : shown id = .text t := here
          exact ⟨⟨⟨t, here⟩, named⟩, by rw [Piece.text, here]; rfl, rest⟩
        · rintro ⟨⟨⟨n, here⟩, named⟩, rfl, rest⟩
          exact ⟨by rw [label, Piece.text, here]; rfl, named, rest⟩

theorem nameList_iff {ps : List Piece} {t : String} :
    nameList (ps.map (label shown)) = .ok t ↔ Named shown (Piece.ids ps) ∧ t = line shown (Piece.commas ps) := by
  unfold nameList
  rw [bind_eq_ok]
  simp only [texts_iff, map_label_iff, pure_eq_ok, Except.ok.injEq, Piece.line_commas]
  constructor
  · rintro ⟨ts, ⟨named, rfl⟩, rfl⟩
    exact ⟨named, rfl⟩
  · rintro ⟨named, rfl⟩
    exact ⟨_, ⟨named, rfl⟩, rfl⟩

theorem componentTexts_of_count {cs : List Component} {rs : List Nat} (rest : List Nat)
    (h : rs.length = cs.count .dynamic) :
    componentTexts shown (cs.map Attr.ofComponent) (rs ++ rest) =
      .ok ((ofComponents cs rs).map (label shown), rest) := by
  induction cs generalizing rs with
  | nil => rw [List.length_eq_zero_iff.mp h]; rfl
  | cons c cs ih =>
    cases c with
    | dynamic =>
      cases rs with
      | nil => simp at h
      | cons r rs =>
        have tail := @ih rs (by simpa using h)
        show (componentTexts shown _ (rs ++ rest) >>= fun x => pure (shown r :: x.1, x.2)) = _
        rw [tail]
        rfl
    | constant n =>
      have tail := @ih rs (by simpa using h)
      show (componentTexts shown _ _ >>= fun x => pure (Label.text (toString n) :: x.1, x.2)) = _
      rw [tail]
      rfl

theorem accessors_iff {a : Accessors} {rs : List Nat} (rest : List Nat) (h : rs.length = a.dynamicCount)
    {r : String × List Nat} :
    accessors shown (.accessors a) (rs ++ rest) = .ok r ↔
      Named shown rs ∧ r = (line shown (ofAccessors a rs), rest) := by
  have truthy : (Attr.accessors a).truthy = .ok (!a.components.isEmpty) := rfl
  have items : (Attr.accessors a).items = .ok (a.components.map Attr.ofComponent) := rfl
  unfold accessors ofAccessors
  rw [truthy, items, Readback.ofAttr_ok, ok_bind, Readback.ofAttr_ok, ok_bind]
  cases hc : a.components.isEmpty with
  | true =>
    have none : rs = [] := by
      apply List.length_eq_zero_iff.mp
      rw [h, Accessors.dynamicCount, List.isEmpty_iff.mp hc]
      rfl
    simp [none, Named, line, pure_eq_ok, eq_comm]
  | false =>
    have components := @componentTexts_of_count shown a.components rs rest h
    have named : Named shown (Piece.ids (ofComponents a.components rs)) ↔ Named shown rs := by
      rw [Piece.ids_ofComponents h]
    simp only [Bool.not_false, Bool.false_eq_true, if_true, if_false, components, ok_bind]
    rw [bind_eq_ok]
    simp only [nameList_iff, pure_eq_ok, Except.ok.injEq, named]
    constructor
    · rintro ⟨t, ⟨hn, rfl⟩, rfl⟩
      exact ⟨hn, by simp [line, Piece.text, String.append_assoc]⟩
    · rintro ⟨hn, rfl⟩
      exact ⟨_, ⟨hn, rfl⟩, by simp [line, Piece.text, String.append_assoc]⟩

/-- The operands of slots are shown in order; of those only the references have to be texts yet. -/
theorem slots_iff {ss : List Slot} {gs : List SlotChoice} (h : Paired (SlotChoice.Legal b op) ss gs) {mark : String}
    {r : String × List Nat} :
    slots shown op ss (((ss.zip gs).flatMap fun x => x.2.sizes x.1).map Int.ofNat)
        (gs.flatMap SlotChoice.operands) mark = .ok r ↔
      Named shown (gs.flatMap SlotChoice.references) ∧
        r = (line shown (ofSlots mark gs), gs.filterMap SlotChoice.main) := by
  induction ss generalizing gs mark r with
  | nil =>
    cases gs with
    | nil => simp [slots, Named, ofSlots, line, eq_comm]
    | cons g gs => cases h
  | cons s ss ih =>
    cases gs with
    | nil => cases h
    | cons g gs =>
      obtain ⟨here, rest⟩ := h
      unfold slots
      simp only [List.zip_cons_cons, List.flatMap_cons, List.filterMap_cons, named_append, SlotChoice.headD_sizes,
        SlotChoice.drop_sizes, ofSlots, SlotChoice.operands]
      cases hg : g.main with
      | none =>
        have none := here.absent hg
        simp [none, Named, ih rest]
      | some id =>
        have present : ¬ Int.ofNat (some id).toList.length = 0 := one_ne_zero
        rw [if_neg present]
        simp only [Option.toList_some, List.cons_append, List.nil_append]
        -- a plain slot has no references, and a register has its accessor in a tag
        cases hs : s.register with
        | false =>
          have empty := here.plain hs
          have none : g.references = [] := List.length_eq_zero_iff.mp (by rw [here.count, empty]; rfl)
          simp only [Bool.false_eq_true, if_false, pure_eq_ok, ok_bind, none, List.nil_append, bind_eq_ok, ih rest]
          rw [empty]
          constructor
          · rintro ⟨x, ⟨named, rfl⟩, h⟩
            cases h
            exact ⟨⟨nofun, named⟩, by simp [ofAccessors, Accessors.empty, line, Piece.text, String.append_assoc]⟩
          · rintro ⟨⟨-, named⟩, rfl⟩
            exact ⟨_, ⟨named, rfl⟩, by simp [ofAccessors, Accessors.empty, line, Piece.text, String.append_assoc]⟩
        | true =>
          rw [if_pos rfl, here.tag hs, Option.getD_some, bind_eq_ok]
          simp only [accessors_iff _ here.count, bind_eq_ok, pure_eq_ok]
          constructor
          · rintro ⟨x, ⟨own, rfl⟩, y, hy, h⟩
            obtain ⟨named, rfl⟩ := (ih rest).mp hy
            cases h
            exact ⟨⟨own, named⟩, by simp [line, Piece.text, String.append_assoc]⟩
          · rintro ⟨⟨own, named⟩, rfl⟩
            exact ⟨_, ⟨own, rfl⟩, _, (ih rest).mpr ⟨named, rfl⟩, by simp [line, Piece.text, String.append_assoc]⟩

theorem arguments_iff (done : List ArgumentChoice) {as : List ArgumentChoice}
    (h : ∀ a ∈ as, a.references.length = a.accessors.dynamicCount) {t : String} :
    arguments shown (.tuple ((done ++ as).map fun a => .accessors a.accessors)) done.length (as.map (·.main))
      (as.flatMap (·.references)) = .ok t ↔
      Named shown (as.flatMap (·.references)) ∧ t = line shown (as.flatMap ofArgument) := by
  induction as generalizing done t with
  | nil => simp [arguments, Named, line, eq_comm]
  | cons a as ih =>
    have rest := @ih (done ++ [a]) fun x hx => h x (List.mem_cons_of_mem _ hx)
    rw [List.append_assoc, List.singleton_append, List.length_append, List.length_singleton] at rest
    have length : (Attr.tuple ((done ++ a :: as).map fun a => .accessors a.accessors)).length =
        .ok (done.length + (as.length + 1)) := by
      simp [Attr.length, Attr.items, Attr.items?, Except.map]
    have item : (Attr.tuple ((done ++ a :: as).map fun a => .accessors a.accessors)).item done.length =
        .ok (.accessors a.accessors) := by
      simp [Attr.item, Attr.items?]
    unfold arguments
    simp only [List.map_cons, List.flatMap_cons, named_append, length, item, Readback.ofAttr_ok, ok_bind,
      if_pos (show done.length < done.length + (as.length + 1) by omega)]
    rw [bind_eq_ok]
    simp only [accessors_iff _ (h a List.mem_cons_self), bind_eq_ok, pure_eq_ok]
    constructor
    · rintro ⟨x, ⟨own, rfl⟩, y, hy, h⟩
      obtain ⟨named, rfl⟩ := rest.mp hy
      cases h
      exact ⟨⟨own, named⟩, by simp [ofArgument, line, Piece.text, String.append_assoc]⟩
    · rintro ⟨⟨own, named⟩, rfl⟩
      exact ⟨_, ⟨own, rfl⟩, _, rest.mpr ⟨named, rfl⟩, by simp [ofArgument, line, Piece.text, String.append_assoc]⟩

/-! ### Types and tags -/

def Written (env : PrintEnv) (ts : List Attr) : Prop := ∀ t ∈ ts, ∃ s, env.shown t = .ok s

def listing (env : PrintEnv) (mark : String) (ts : List Attr) : String :=
  if ts.isEmpty then "" else mark ++ ", ".intercalate (ts.map fun t => (env.shown t).toOption.getD "")

theorem shown_iff {t : Attr} {s : String} :
    env.shown t = .ok s ↔ (∃ s, env.shown t = .ok s) ∧ s = (env.shown t).toOption.getD "" := by
  cases h : env.shown t <;> simp [Except.toOption, eq_comm]

theorem shown_symbol (env : PrintEnv) {name : Label} (h : name.isShowable = true) :
    env.shown (.symbol name) = .ok ("@" ++ name.display) := by
  rw [PrintEnv.shown.eq_def]
  simp only [Attr.shown, Attr.unshown?, h, if_true]
  rfl

theorem typeList_iff {ts : List Attr} {s : String} :
    typeList env ts = .ok s ↔
      Written env ts ∧ s = ", ".intercalate (ts.map fun t => (env.shown t).toOption.getD "") := by
  have each : ∀ us, ts.mapM env.shown = .ok us ↔
      Written env ts ∧ us = ts.map fun t => (env.shown t).toOption.getD "" := by
    induction ts with
    | nil => intro us; simp [Written, pure_eq_ok, eq_comm]
    | cons t ts ih =>
      intro us
      rw [Kind.mapM_eq_ok_cons, List.map_cons, Written, List.forall_mem_cons]
      constructor
      · rintro ⟨s, zs, hs, hzs, rfl⟩
        obtain ⟨here, rfl⟩ := shown_iff.mp hs
        obtain ⟨rest, rfl⟩ := (ih zs).mp hzs
        exact ⟨⟨here, rest⟩, rfl⟩
      · rintro ⟨⟨here, rest⟩, rfl⟩
        exact ⟨_, _, shown_iff.mpr ⟨here, rfl⟩, (ih _).mpr ⟨rest, rfl⟩, rfl⟩
  unfold typeList
  rw [bind_eq_ok]
  simp only [each, pure_eq_ok, Except.ok.injEq]
  constructor
  · rintro ⟨us, ⟨written, rfl⟩, rfl⟩
    exact ⟨written, rfl⟩
  · rintro ⟨written, rfl⟩
    exact ⟨_, ⟨written, rfl⟩, rfl⟩

theorem map_append_iff {ts : List Attr} {mark s : String} :
    (if ts.isEmpty then .ok "" else (typeList env ts).map (mark ++ ·) : Readback String) = .ok s ↔
      Written env ts ∧ s = listing env mark ts := by
  unfold listing
  cases hts : ts.isEmpty with
  | true => simp [Written, List.isEmpty_iff.mp hts, eq_comm]
  | false =>
    simp only [Bool.false_eq_true, if_false]
    cases h : typeList env ts with
    | error e =>
      have none : ¬ Written env ts := fun written => by
        rw [typeList_iff.mpr ⟨written, rfl⟩] at h
        cases h
      simp [Except.map, none]
    | ok t =>
      obtain ⟨written, rfl⟩ := typeList_iff.mp h
      simp [Except.map, written, eq_comm]

theorem colonTypes_iff {ts : List Attr} {s : String} :
    colonTypes env ts = .ok s ↔ Written env ts ∧ s = listing env " : " ts := map_append_iff

theorem arrowTypes_iff {ts : List Attr} {s : String} :
    arrowTypes env ts = .ok s ↔ Written env ts ∧ s = listing env " -> " ts := map_append_iff

theorem withNames_iff {ids : List Nat} {text t : String} :
    withNames (ids.map shown) text = .ok t ↔ Named shown ids ∧ t = text := by
  have ids_eq : Piece.ids (ids.map .operand) = ids := by
    induction ids with
    | nil => rfl
    | cons id ids ih => rw [List.map_cons, Piece.ids, ih]
  have labels : ids.map shown = (ids.map Piece.operand).map (label shown) := by
    rw [List.map_map]
    rfl
  unfold withNames
  rw [bind_eq_ok, labels]
  simp only [texts_iff, map_label_iff, ids_eq, pure_eq_ok, Except.ok.injEq]
  constructor
  · rintro ⟨ts, ⟨named, -⟩, rfl⟩
    exact ⟨named, rfl⟩
  · rintro ⟨named, rfl⟩
    exact ⟨_, ⟨named, rfl⟩, rfl⟩

theorem tagTexts_ok {attrs : List (String × Attr)} (h : ∀ t ∈ attrs, ∃ s, t.2.literal = .ok s) :
    ∃ ts, tagTexts attrs = .ok ts := by
  induction attrs with
  | nil => exact ⟨[], rfl⟩
  | cons t attrs ih =>
    obtain ⟨s, hs⟩ := h t List.mem_cons_self
    obtain ⟨ts, hts⟩ := ih fun x hx => h x (List.mem_cons_of_mem _ hx)
    refine ⟨s!"{t.1} = {s}" :: ts, ?_⟩
    rw [tagTexts, hs, ok_bind, hts]
    rfl

theorem tags_ok {attrs : List (String × Attr)} {elided : List String}
    (h : ∀ t ∈ attrs, elided.contains t.1 = false → ∃ s, t.2.literal = .ok s) : ∃ s, tags attrs elided = .ok s := by
  unfold tags
  dsimp only
  by_cases none : (attrs.filter fun t => !elided.contains t.1).isEmpty = true
  · exact ⟨"", by rw [if_pos none]; rfl⟩
  · obtain ⟨ts, hts⟩ := @tagTexts_ok (attrs.filter fun t => !elided.contains t.1) fun t ht => by
      obtain ⟨inside, free⟩ := List.mem_filter.mp ht
      exact h t inside (by simpa using free)
    exact ⟨_, by rw [if_neg none, hts, ok_bind]; rfl⟩

/-! ### The two forms -/

end Printer

/-- Everything that verifying an operation does not look at can be written: a literal angle is a finite number,
the number of a call is an integer that is not too long, no number in the place of the callee's name is, and the
user's tags have literals. -/
structure Operation.Printable (op : Operation) (k : Kind) : Prop where
  angle : k.rotation = true → ∀ a, op.tag? angleTag = some a → ∃ x, a.toFloat = .ok x ∧ x.isFinite = true
  count : k.callForm = true → ∃ a n, op.tag? countTag = some a ∧ a.toInt = .ok n ∧ FewDigits n
  callee : ∀ name, op.tag? calleeTag = some (.symbol name) → name.isShowable = true
  others : ∀ t ∈ op.attrs, k.structuralTags.contains t.1 = false → ∃ s, t.2.literal = .ok s

namespace Printer

variable {shown : Nat → Label} {env : PrintEnv} {b : Block} {op : Operation} {k : Kind} {sizes : List Int}

theorem angle_ok {g : SlotChoice} {rest : List Nat} (ho : op.operands = g.main.toList ++ rest)
    (ha : (op.tag? angleTag).isSome = true → g.main = none)
    (hx : ∀ a, op.tag? angleTag = some a → ∃ x, a.toFloat = .ok x ∧ x.isFinite = true) :
    ∃ ps, Piece.ids ps = g.main.toList ∧
      ∀ shown, angle shown op (Int.ofNat g.main.toList.length) = .ok (Piece.line shown ps, g.main.toList, rest) := by
  unfold angle
  cases hp : op.tag? angleTag with
  | some a =>
    obtain ⟨x, hreal, hfinite⟩ := hx a hp
    have literal : Attr.floatLiteral x = .ok x.text := if_pos hfinite
    rw [ha (by rw [hp]; rfl)] at ho ⊢
    refine ⟨[.words s!"({x.text})"], rfl, fun shown => ?_⟩
    simp only [hreal, literal, Readback.ofAttr_ok, Readback.ofLiteral_ok, ok_bind, ho]
    simp [Piece.line, Piece.text, pure_eq_ok]
  | none =>
    cases hg : g.main with
    | none =>
      rw [hg] at ho
      exact ⟨[], rfl, fun shown => by simp [ho, Piece.line]⟩
    | some id =>
      rw [hg] at ho
      refine ⟨[.words "(", .operand id, .words ")"], rfl, fun shown => ?_⟩
      simp [ho, Piece.line, Piece.text, String.append_assoc]

theorem named_slots {gs : List SlotChoice} : Named shown (gs.flatMap SlotChoice.operands) ↔
    Named shown (gs.flatMap SlotChoice.references) ∧ Named shown (gs.filterMap SlotChoice.main) := by
  induction gs with
  | nil => simp [Named]
  | cons g gs ih =>
    rw [List.flatMap_cons, List.flatMap_cons, named_append, named_append, ih, SlotChoice.operands, named_append,
      List.filterMap_cons]
    cases g.main with
    | none => simp [Named, and_assoc]
    | some id =>
      rw [Option.toList_some, named_cons, named_cons]
      simp only [Named, List.not_mem_nil, false_implies, implies_true, and_true]
      tauto

theorem front_ok (hk : k.Valid) {gs : List SlotChoice} (h : op.Flattens b k sizes gs) (hp : op.Printable k) :
    ∃ (ps : List Piece) (mains : List Nat) (others : List SlotChoice), Piece.ids ps = mains ∧
      op.operands = mains ++ others.flatMap SlotChoice.operands ∧
      gs.filterMap SlotChoice.main = mains ++ others.filterMap SlotChoice.main ∧
      Paired (SlotChoice.Legal b op) k.operandSlots others ∧
      (if k.rotation then sizes.drop 1 else sizes) =
        ((k.operandSlots.zip others).flatMap fun x => x.2.sizes x.1).map Int.ofNat ∧
      (k.rotation = false → ps = []) ∧
      (k.rotation = true → ∀ shown, angle shown op (sizes.headD 0) =
        .ok (Piece.line shown ps, mains, others.flatMap SlotChoice.operands)) := by
  have slots := h.slots
  have hsizes := h.sizes
  cases hr : k.rotation with
  | false =>
    have all : k.operandSlots = k.slots := by rw [Kind.operandSlots, hr]; rfl
    exact ⟨[], [], gs, rfl, h.operands, rfl, by rw [all]; exact slots, by rw [all, hsizes]; rfl, fun _ => rfl,
      fun h => Bool.noConfusion h⟩
  | true =>
    obtain ⟨s, hslots, hs⟩ := hk.angleSlot hr
    rw [hslots] at slots hsizes
    cases gs with
    | nil => cases slots
    | cons g gs =>
      obtain ⟨here, rest⟩ := slots
      have none : g.references = [] := List.length_eq_zero_iff.mp (by rw [here.count, here.plain hs]; rfl)
      have operands : op.operands = g.main.toList ++ gs.flatMap SlotChoice.operands := by
        rw [h.operands, List.flatMap_cons, SlotChoice.operands, none, List.append_nil]
      have first : g.sizes s = [g.main.toList.length] := by rw [SlotChoice.sizes, hs]; rfl
      rw [List.zip_cons_cons, List.flatMap_cons, first] at hsizes
      obtain ⟨ps, hids, hangle⟩ := angle_ok operands (fun ht => h.angle hr ht g rfl) (hp.angle hr)
      refine ⟨ps, g.main.toList, gs, hids, operands, ?_, rest, ?_, fun h => Bool.noConfusion h, fun _ shown => ?_⟩
      · rw [List.filterMap_cons]
        cases g.main <;> rfl
      · rw [hsizes]
        rfl
      · rw [hsizes]
        exact hangle shown

/-- The generic form shows the operands in their order. -/
theorem generic_iff (env : PrintEnv) (hk : k.Valid) (hcall : k.callForm = false)
    (hsizes : op.segmentSizes = .ok sizes) {gs : List SlotChoice} (h : op.Flattens b k sizes gs) (hp : op.Printable k) :
    ∃ front tags, Piece.ids front = op.operands ∧ ∀ names text, generic env b names k op = .ok text ↔
      Named (b.shownName names) op.operands ∧ Written env (b.typesOf (gs.filterMap SlotChoice.main)) ∧
      Written env (b.typesOf op.results) ∧
      text = Piece.line (b.shownName names) front ++ tags ++
        listing env " : " (b.typesOf (gs.filterMap SlotChoice.main)) ++
        listing env " -> " (b.typesOf op.results) := by
  obtain ⟨ps, mains, others, hids, operands, allMains, legal, later, absent, hangle⟩ := front_ok hk h hp
  obtain ⟨tagText, htags⟩ := tags_ok hp.others
  have count : sizes.length = k.segmentCount := (Kind.sizes_of_legal (a := .slots gs) ⟨hcall, h⟩).1
  refine ⟨.words k.name :: ps ++ Piece.ofSlots " " others, tagText, ?_, fun names text => ?_⟩
  · rw [operands, List.cons_append, Piece.ids, Piece.ids_append, hids, Piece.ids_ofSlots legal]
  · have named : Named (b.shownName names) op.operands ↔
        Named (b.shownName names) (others.flatMap SlotChoice.references) ∧
        Named (b.shownName names) (gs.filterMap SlotChoice.main) := by
      rw [operands, allMains, named_append, named_append, named_slots]
      tauto
    have run : generic env b names k op = (do
        let x ← slots (b.shownName names) op k.operandSlots
          (((k.operandSlots.zip others).flatMap fun x => x.2.sizes x.1).map Int.ofNat)
          (others.flatMap SlotChoice.operands) " "
        let tagText ← Readback.ofLiteral (tags op.attrs k.structuralTags)
        let operandTypes ← colonTypes env (b.typesOf (mains ++ x.2))
        let resultTypes ← arrowTypes env (b.typesOf op.results)
        withNames ((mains ++ x.2).map (b.shownName names))
          (k.name ++ Piece.line (b.shownName names) ps ++ x.1 ++ tagText ++ operandTypes ++ resultTypes)) := by
      unfold generic
      rw [hsizes, ok_bind]
      cases hr : k.rotation with
      | true =>
        simp only [hr, if_true] at later
        simp only [count, bne_self_eq_false, Bool.false_eq_true, if_false, if_true, hangle hr, later, ok_bind]
      | false =>
        obtain rfl := absent hr
        obtain rfl : [] = mains := hids
        simp only [hr, Bool.false_eq_true, if_false] at later
        simp only [count, bne_self_eq_false, Bool.false_eq_true, if_false]
        simp only [later, pure_eq_ok, ok_bind, operands, List.nil_append]
        rfl
    -- every step of the printer is known but the names of the operands
    rw [run, bind_eq_ok]
    simp only [slots_iff legal, htags, Readback.ofLiteral_ok, ok_bind, bind_eq_ok, colonTypes_iff, arrowTypes_iff,
      withNames_iff]
    rw [named, allMains]
    constructor
    · rintro ⟨x, ⟨own, rfl⟩, y, ⟨types, rfl⟩, z, ⟨results, rfl⟩, named, rfl⟩
      exact ⟨⟨own, named⟩, types, results, by simp [Piece.line, Piece.text, String.append_assoc]⟩
    · rintro ⟨⟨own, named⟩, types, results, rfl⟩
      exact ⟨_, ⟨own, rfl⟩, _, ⟨types, rfl⟩, _, ⟨results, rfl⟩, named,
        by simp [Piece.line, Piece.text, String.append_assoc]⟩

/-- The form of a call shows each argument with its references behind it. -/
theorem call_iff (env : PrintEnv) (hcall : k.callForm = true) (hsizes : op.segmentSizes = .ok sizes)
    {as : List ArgumentChoice} (h : op.FlattensCall b sizes as) (hp : op.Printable k) :
    ∃ front tags, Piece.ids front = (as.flatMap fun a => a.main :: a.references) ∧
      ∀ names text, call env b names k op = .ok text ↔
        Named (b.shownName names) op.operands ∧ Written env (b.typesOf (as.map (·.main))) ∧
        Written env (b.typesOf op.results) ∧
        text = Piece.line (b.shownName names) front ++ tags ++ listing env " : " (b.typesOf (as.map (·.main))) ++
          listing env " -> " (b.typesOf op.results) := by
  obtain ⟨callee, hcallee⟩ := h.callee
  obtain ⟨a, n, hcount, hn, few⟩ := hp.count hcall
  obtain ⟨tagText, htags⟩ := tags_ok hp.others
  obtain ⟨result, hresult⟩ := List.length_eq_one_iff.mp h.result
  -- the two windows of the operands are the arguments and their references
  have front : window op.operands 0 (Int.ofNat as.length) = as.map (·.main) := by
    rw [h.operands]
    simpa using window_front (as.map (·.main)) (as.flatMap (·.references))
  have back : window op.operands (Int.ofNat as.length) (op.operands.length : Int) = as.flatMap (·.references) := by
    rw [h.operands]
    simpa using window_back (as.map (·.main)) (as.flatMap (·.references))
  obtain ⟨symbolText, symbol⟩ : ∃ t, env.shown (.symbol callee) = .ok t :=
    ⟨_, shown_symbol env (hp.callee callee hcallee)⟩
  refine ⟨.words s!"{k.name} {symbolText}({toString n}" :: as.flatMap Piece.ofArgument ++ [.words ")"], tagText, ?_,
    fun names text => ?_⟩
  · rw [List.cons_append, Piece.ids, Piece.ids_append, Piece.ids_ofArguments h.arguments]
    simp [Piece.ids]
  · have args : ∀ t, arguments (b.shownName names) (.tuple (as.map fun a => .accessors a.accessors)) 0 (as.map (·.main))
        (as.flatMap (·.references)) = .ok t ↔ Named (b.shownName names) (as.flatMap (·.references)) ∧
          t = Piece.line (b.shownName names) (as.flatMap Piece.ofArgument) := fun t =>
      arguments_iff [] fun a ha => (h.arguments a ha).count
    have typed : ∀ s, env.shown (b.typeOf result) = .ok s ↔
        Written env (b.typesOf [result]) ∧ s = (env.shown (b.typeOf result)).toOption.getD "" := by
      intro s
      rw [shown_iff]
      simp [Written, Block.typesOf]
    have arrow : listing env " -> " (b.typesOf [result]) = " -> " ++
        (env.shown (b.typeOf result)).toOption.getD "" := by
      simp [listing, Block.typesOf]
    unfold call
    rw [hsizes, ok_bind, h.sizes]
    simp only [List.length_cons, List.length_nil, bne_self_eq_false, Bool.false_eq_true, if_false, hresult]
    rw [requiredTag_eq hcallee, ok_bind, symbol, ok_bind, requiredTag_eq hcount, ok_bind, hn, Readback.ofAttr_ok,
      ok_bind, shown_int few, ok_bind, h.accessors, Option.getD_some, List.headD_cons, front, back, htags,
      Readback.ofLiteral_ok]
    simp only [ok_bind, bind_eq_ok, args, typed, colonTypes_iff, withNames_iff]
    rw [h.operands, named_append, arrow]
    constructor
    · rintro ⟨x, ⟨own, rfl⟩, y, ⟨types, rfl⟩, z, ⟨results, rfl⟩, named, rfl⟩
      exact ⟨⟨named, own⟩, types, results, by simp [Piece.line, Piece.text, String.append_assoc]⟩
    · rintro ⟨⟨named, own⟩, types, results, rfl⟩
      exact ⟨_, ⟨own, rfl⟩, _, ⟨types, rfl⟩, _, ⟨results, rfl⟩, named,
        by simp [Piece.line, Piece.text, String.append_assoc]⟩

end Printer

/-! ## Verified operations -/

def SlotOperands.operands (g : SlotOperands) : List Nat := g.main.toList ++ g.references

theorem SlotChoice.groups_operands {ss : List Slot} {gs : List SlotChoice} (h : ss.length = gs.length) :
    (List.zipWith SlotChoice.group ss gs).filterMap (·.main) = gs.filterMap SlotChoice.main ∧
      (List.zipWith SlotChoice.group ss gs).flatMap SlotOperands.operands = gs.flatMap SlotChoice.operands := by
  induction ss generalizing gs with
  | nil =>
    obtain rfl := List.length_eq_zero_iff.mp h.symm
    exact ⟨rfl, rfl⟩
  | cons s ss ih =>
    obtain ⟨g, gs, rfl⟩ := List.exists_cons_of_length_eq_add_one h.symm
    obtain ⟨mains, operands⟩ := ih (Nat.succ.inj h)
    rw [List.zipWith_cons_cons, List.filterMap_cons, List.filterMap_cons, List.flatMap_cons, List.flatMap_cons, mains,
      operands]
    exact ⟨rfl, rfl⟩

theorem ArgumentChoice.groups_operands (as : List ArgumentChoice) (i : Nat) :
    ((as.zipIdx i).map Kind.argumentGroup).filterMap (·.main) = as.map (·.main) ∧
      ((as.zipIdx i).map Kind.argumentGroup).flatMap (·.references) = as.flatMap (·.references) ∧
      ((as.zipIdx i).map Kind.argumentGroup).flatMap SlotOperands.operands =
        as.flatMap fun a => a.main :: a.references := by
  induction as generalizing i with
  | nil => exact ⟨rfl, rfl, rfl⟩
  | cons a as ih =>
    obtain ⟨mains, references, operands⟩ := ih (i + 1)
    simp only [List.zipIdx_cons, List.map_cons, List.filterMap_cons, List.flatMap_cons, mains, references, operands]
    exact ⟨rfl, rfl, rfl⟩

namespace Block

variable {registry : Registry} {k : Kind} {b : Block} {op : Operation}

theorem segmentSizes_of_verify (hv : k.verify b op = .ok ()) :
    op.opcode = .text k.name ∧ ∃ sizes, op.segmentSizes = .ok sizes := by
  unfold Kind.verify at hv
  obtain ⟨same, hv⟩ := Kind.rule_iff.mp hv
  obtain ⟨sizes, hsizes, -⟩ := bind_eq_ok.mp hv
  refine ⟨Block.same_text_iff.mp ?_, sizes, hsizes⟩
  simpa using same

/-- **What is verified is printed in full.** An operation that its registered kind accepts, with tags that can be
written, is printed under all names under which its operands have texts. The operands are shown in the order in
which regrouping gives them, each once and in its place whatever the names are, and the types behind the colon
are those of the operands that are no references. -/
theorem printOperation_of_verify (hreg : registry.kind? k.name = some k) (hk : k.Valid) (hv : k.verify b op = .ok ())
    (hp : op.Printable k) :
    ∃ (groups : List SlotOperands) (front : List Piece) (tags : String), k.slotOperands op = .ok groups ∧
      Piece.ids front = groups.flatMap SlotOperands.operands ∧
      (k.callForm = false → op.operands = groups.flatMap SlotOperands.operands) ∧
      (k.callForm = true → (∀ g ∈ groups, g.main.isSome = true) ∧
        op.operands = groups.filterMap (·.main) ++ groups.flatMap (·.references)) ∧
      ∀ names text, b.printOperation registry names op = .ok text ↔
        Printer.Named (b.shownName names) op.operands ∧
        Printer.Written registry.printEnv (b.typesOf (groups.filterMap (·.main) ++ op.results)) ∧
        text = Piece.line (b.shownName names) front ++ tags ++
          Printer.listing registry.printEnv " : " (b.typesOf (groups.filterMap (·.main))) ++
          Printer.listing registry.printEnv " -> " (b.typesOf op.results) := by
  obtain ⟨hname, sizes, hsizes⟩ := segmentSizes_of_verify hv
  -- what is accepted is the flattening of an assignment, and that is what is printed
  obtain ⟨a, legal⟩ := (Kind.verify_iff hk hname hsizes).1.mp hv
  have groups := Kind.slotOperands_of_legal hsizes legal
  have found : registry.printEnv.registry.find op.opcode = .ok (some k) := by
    rw [hname]
    exact congrArg Except.ok hreg
  have written : ∀ xs ys, Printer.Written registry.printEnv (b.typesOf (xs ++ ys)) ↔
      Printer.Written registry.printEnv (b.typesOf xs) ∧ Printer.Written registry.printEnv (b.typesOf ys) := by
    intro xs ys
    rw [typesOf, List.map_append]
    exact List.forall_mem_append
  cases a with
  | slots gs =>
    obtain ⟨hcall, h⟩ := legal
    obtain ⟨front, tags, hids, printed⟩ := Printer.generic_iff registry.printEnv hk hcall hsizes h hp
    obtain ⟨mains, operands⟩ := SlotChoice.groups_operands (Kind.length_of_legal h.slots).1
    refine ⟨List.zipWith SlotChoice.group k.slots gs, front, tags, groups, ?_, fun _ => ?_, fun hc => ?_,
      fun names text => ?_⟩
    · rw [hids, operands, h.operands]
    · rw [operands, h.operands]
    · rw [hcall] at hc
      cases hc
    · unfold printOperation Printer.operation
      rw [found, ok_bind]
      simp only [hcall, Bool.false_eq_true, if_false]
      rw [printed, mains, written, and_assoc]
  | arguments as =>
    obtain ⟨hcall, h⟩ := legal
    obtain ⟨front, tags, hids, printed⟩ := Printer.call_iff registry.printEnv hcall hsizes h hp
    obtain ⟨mains, references, operands⟩ := ArgumentChoice.groups_operands as 0
    refine ⟨as.zipIdx.map Kind.argumentGroup, front, tags, groups, ?_, fun hc => ?_, fun _ => ⟨fun g hg => ?_, ?_⟩,
      fun names text => ?_⟩
    · rw [hids, operands]
    · rw [hcall] at hc
      cases hc
    · obtain ⟨x, -, rfl⟩ := List.mem_map.mp hg
      rfl
    · rw [mains, references, h.operands]
    · unfold printOperation Printer.operation
      rw [found, ok_bind]
      simp only [hcall, if_true]
      rw [printed, mains, written, and_assoc]

/-- The measurement of a part of a register shows the register and then the index, and one type. -/
theorem printOperation_of_verify_measured : ∃ op ∈ Kind.measured.operations, ∃ front tags,
    Piece.ids front = [0, 1] ∧ ∀ names text, Kind.measured.printOperation .standard names op = .ok text ↔
      Printer.Named (Kind.measured.shownName names) [0, 1] ∧
      Printer.Written Registry.standard.printEnv [.type (.register none)] ∧
      text = Piece.line (Kind.measured.shownName names) front ++ tags ++
        Printer.listing Registry.standard.printEnv " : " [.type (.register none)] ++
        Printer.listing Registry.standard.printEnv " -> " [] := by
  refine ⟨Kind.measured.operations[0], List.mem_cons_self, ?_⟩
  have verified : Kind.measurement.verify Kind.measured Kind.measured.operations[0] = .ok () :=
    eq_ok_of_isOk (by decide +kernel)
  have printable : Kind.measured.operations[0].Printable Kind.measurement := by
    refine ⟨nofun, nofun, nofun, fun t ht hfree => absurd hfree ?_⟩
    revert t
    decide
  have known : Registry.standard.kind? Kind.measurement.name = some Kind.measurement := by decide +kernel
  obtain ⟨groups, front, tags, regrouped, hids, generic, -, printed⟩ :=
    printOperation_of_verify known (by decide) verified printable
  have mains : groups.filterMap (·.main) = [0] := by
    have : (Kind.measurement.slotOperands Kind.measured.operations[0]).toOption.map (·.filterMap (·.main)) =
        some [0] := by
      decide +kernel
    rw [regrouped] at this
    exact Option.some.inj this
  rw [mains] at printed
  exact ⟨front, tags, hids.trans (generic rfl).symm, printed⟩

def hadamard : Kind := ⟨"quantum.h", [⟨"trgt", true, false⟩], false, false, "Hadamard"⟩

def gate : Operation :=
  ⟨.text "quantum.h", [0], [],
    [("trgt_accessors", .accessors .empty), (segmentSizesTag, segmentSizesAttr [1, 0])], "op0"⟩

def numbered : Block := ⟨[⟨.data (.int 5), .type .qubit, none, [⟨0, none⟩]⟩], [(.data (.int 5), 0)], [0], [gate], 0, 0⟩

/-- A value with a block in the place of its type, and a gate on it. There is no kind for that block's operation. -/
def blockTyped : Block :=
  ⟨[⟨"%q", .block (.obj [("inputs", .arr []), ("operations", .arr [.obj [("opcode", .str "x"), ("operands", .arr []),
    ("results", .arr []), ("attrs", .obj [])]]), ("_kind", .str "quantir.Block")]), none, [⟨0, none⟩]⟩],
    [("%q", 0)], [0], [gate], 0, 0⟩

/-- A call without arguments, whose result is a circuit. -/
def bareCall (callee : Label) (n : Int) : Operation :=
  ⟨.text "quantum.pcircuit", [], [0], [(calleeTag, .symbol callee), (countTag, .int n),
    (callAccessorsTag, .tuple []), (segmentSizesTag, segmentSizesAttr [0, 0])], "op0"⟩

def calling (callee : Label) (n : Int) : Block :=
  ⟨[⟨"%c", .type .circuit, some ⟨0, none⟩, []⟩], [("%c", 0)], [], [bareCall callee n], 1, 0⟩

/-- The gate is accepted, and yet it is not printed: the name of its operand is no text, or the type has none. Nor is
a call with an integer that is too long to be shown, as its number or in the place of its callee's name. -/
theorem not_printOperation_of_verify :
    (Registry.standard.kind? "quantum.h" = some hadamard ∧
      ∀ b ∈ [numbered, blockTyped], ∃ op ∈ b.operations, hadamard.verify b op = .ok () ∧ op.Printable hadamard ∧
        ∀ text, b.printOperation .standard [] op ≠ .ok text) ∧
    Registry.standard.kind? "quantum.pcircuit" = some Kind.circuitCall ∧
    ∀ x ∈ [((.text "f" : Label), (10 ^ maxIntegerDigits : Int)), (.data (.int (10 ^ maxIntegerDigits)), 1)],
      Kind.circuitCall.verify (calling x.1 x.2) (bareCall x.1 x.2) = .ok () ∧
      (∀ t ∈ (bareCall x.1 x.2).attrs, Kind.circuitCall.structuralTags.contains t.1 = true) ∧
      ∀ text, (calling x.1 x.2).printOperation .standard [] (bareCall x.1 x.2) ≠ .ok text := by
  have not_ok : ∀ {x : Readback String}, x.isOk = false → ∀ text, x ≠ .ok text := by
    intro x hx text h
    rw [h] at hx
    cases hx
  have printable : gate.Printable hadamard := by
    refine ⟨nofun, nofun, nofun, fun t ht hfree => absurd hfree ?_⟩
    revert t
    decide
  refine ⟨⟨by decide +kernel, fun b hb => ?_⟩, by decide +kernel, fun x hx => ?_⟩
  · rcases List.mem_pair.mp hb with rfl | rfl
    · exact ⟨gate, List.mem_cons_self, eq_ok_of_isOk (by decide +kernel), printable, not_ok (by decide +kernel)⟩
    · exact ⟨gate, List.mem_cons_self, eq_ok_of_isOk (by decide +kernel), printable, not_ok (by decide +kernel)⟩
  · rcases List.mem_pair.mp hx with rfl | rfl
    · exact ⟨eq_ok_of_isOk (by decide +kernel), by decide +kernel, not_ok (by decide +kernel)⟩
    · exact ⟨eq_ok_of_isOk (by decide +kernel), by decide +kernel, not_ok (by decide +kernel)⟩

end Block

end GateAsm
