import GateAsm.Proofs.Line

/-!
# Contexts of plain types

Types that are written have integers for parameters. A context that keeps no others gives back the very
type that is asked for, and stays so; what a line does to a block then does not depend on the context.
-/

namespace GateAsm

/-- All types that the context keeps have integers for parameters. -/
def TypeContext.Plain (c : TypeContext) : Prop := ∀ t ∈ c.stored, t.type.plain = t.type

instance (c : TypeContext) : Decidable c.Plain := by unfold TypeContext.Plain; infer_instance

namespace TypeContext

variable {c : TypeContext} {t : Ty}

theorem plain_default : TypeContext.default.Plain := by decide

theorem Plain.intern (hc : c.Plain) (ht : t.plain = t) : (c.intern t).1 = t ∧ (c.intern t).2.Plain := by
  unfold TypeContext.intern
  cases h : c.find? ⟨t, []⟩ with
  | some kept =>
    rw [store_of_find? h]
    have same := List.find?_some h
    simp only [StoredType.same, Bool.and_eq_true, Ty.same_iff] at same
    exact ⟨(hc kept (List.mem_of_find?_eq_some h)).symm.trans (same.1.trans ht), hc⟩
  | none =>
    rw [store_of_find?_none h]
    refine ⟨rfl, fun u hu => ?_⟩
    rcases List.mem_append.mp hu with hu | hu
    · exact hc u hu
    · rw [List.mem_singleton.mp hu]; exact ht

theorem Plain.keep (hc : c.Plain) (ht : t.plain = t) : (c.keep t).1 = t ∧ (c.keep t).2.Plain := by
  cases t with
  | controlled b n => exact (hc.intern (t := b.ty) (by cases b <;> rfl)).2.intern rfl
  | _ => exact hc.intern ht

theorem Plain.keepAll {ts : List Ty} (hc : c.Plain) (ht : ∀ t ∈ ts, t.plain = t) :
    (c.keepAll ts).1 = ts ∧ (c.keepAll ts).2.Plain := by
  induction ts generalizing c with
  | nil => exact ⟨rfl, hc⟩
  | cons t ts ih =>
    obtain ⟨first, hc'⟩ := hc.keep (ht t List.mem_cons_self)
    obtain ⟨others, hc''⟩ := ih hc' fun u hu => ht u (List.mem_cons_of_mem _ hu)
    exact ⟨by rw [TypeContext.keepAll, first, others], hc''⟩

theorem Plain.indexAfter {ts : List Ty} (hc : c.Plain) (ht : ∀ t ∈ ts, t.plain = t) :
    (indexAfter c ts).1 = .index ∧ (indexAfter c ts).2.Plain := (hc.keepAll ht).2.intern rfl

end TypeContext

/-! ## Statements -/

namespace Statement

/-- The types of the statement have integers for parameters. -/
structure Plain (m : Statement) : Prop where
  types : ∀ t ∈ m.types, t.plain = t
  results : ∀ t ∈ m.results, t.plain = t

def writtenUses (m : Statement) : List (String × Ty) :=
  m.content.physical.zip (Parser.operandTypes (m.content.flagged.map (·.2)) .index m.types)

def writtenState (m : Statement) (k : Kind) (b : Block) : OperationState :=
  ⟨k.name, (m.content.physical.map fun n => (b.lookup n).getD 0).map some, m.content.structural k ++ m.tags,
    m.results.map .type⟩

section
variable {m : Statement} {c : TypeContext}

theorem Plain.uses_eq (hm : m.Plain) (hc : c.Plain) : m.uses c = m.writtenUses := by
  unfold uses typedUses writtenUses Content.physical
  rw [(hc.indexAfter hm.types).1, (hc.keepAll hm.types).1]

theorem Plain.state_eq (hm : m.Plain) (hc : c.Plain) (k : Kind) (b : Block) :
    m.state c k b = m.writtenState k b := by
  unfold state writtenState
  rw [((hc.indexAfter hm.types).2.keepAll hm.results).1]

theorem Plain.context (hm : m.Plain) (hc : c.Plain) : (m.context c).Plain :=
  ((hc.indexAfter hm.types).2.keepAll hm.results).2

end

end Statement

theorem Parser.mem_operandTypes {pinned : List Bool} {i t : Ty} {types : List Ty}
    (h : t ∈ Parser.operandTypes pinned i types) : t = i ∨ t ∈ types := by
  induction pinned generalizing types with
  | nil => cases h
  | cons p pinned ih =>
    cases p with
    | true =>
      rcases List.mem_cons.mp h with rfl | h
      · exact .inl rfl
      · exact ih h
    | false =>
      cases types with
      | nil => cases h
      | cons u types =>
        rcases List.mem_cons.mp h with rfl | h
        · exact .inr List.mem_cons_self
        · exact (ih h).imp_right (List.mem_cons_of_mem _)

theorem Statement.Lawful.flags {m : Statement} {k : Kind} (h : m.Lawful k) :
    (m.content.flagged.filter (!·.2)).length = m.types.length := by
  rw [h.types, Content.mains_eq_filter, List.length_map]

theorem Statement.Lawful.used {m : Statement} {k : Kind} (h : m.Lawful k) :
    m.writtenUses.map (·.1) = m.content.physical := by
  have hlen : ((m.content.flagged.map (·.2)).filter (!·)).length = m.types.length := by
    rw [← h.flags, List.filter_map, List.length_map]; rfl
  have := Parser.length_operandTypes (i := .index) hlen
  rw [writtenUses, List.map_fst_zip]
  exact Nat.le_of_eq (by rw [this, Content.physical, List.length_map, List.length_map])

theorem forall_written_iff {ρ : Type} (typed : ρ → Attr) {flagged : List (ρ × Bool)} {types : List Ty}
    (hlen : (flagged.filter (!·.2)).length = types.length) :
    (∀ x ∈ (flagged.map (·.1)).zip (Parser.operandTypes (flagged.map (·.2)) .index types), typed x.1 = .type x.2) ↔
      ((flagged.filter (!·.2)).map (·.1)).map typed = types.map .type ∧
        ∀ x ∈ flagged, x.2 = true → typed x.1 = .type .index := by
  induction flagged generalizing types with
  | nil =>
    obtain rfl : types = [] := List.length_eq_zero_iff.mp hlen.symm
    simp
  | cons x flagged ih =>
    obtain ⟨r, pinned⟩ := x
    cases pinned with
    | true =>
      have hrest : (flagged.filter (!·.2)).length = types.length := by simpa using hlen
      simp only [List.map_cons, Parser.operandTypes, List.zip_cons_cons, List.forall_mem_cons, ih hrest,
        List.filter_cons, Bool.not_true, Bool.false_eq_true, if_false, true_implies]
      exact and_left_comm
    | false =>
      cases types with
      | nil => simp at hlen
      | cons t types =>
        have hrest : (flagged.filter (!·.2)).length = types.length := by simpa using hlen
        simp only [List.map_cons, Parser.operandTypes, List.zip_cons_cons, List.forall_mem_cons, ih hrest,
          List.filter_cons, Bool.not_false, if_true, List.cons.injEq, Bool.false_eq_true, false_implies, true_and,
          and_assoc]

/-! ## Lines -/

namespace Line

variable {l : Line} {c c' : TypeContext} {b b' : Block}

theorem Runs.change_context (hm : l.statement.Plain) (hc : c.Plain) (hc' : c'.Plain) (h : l.Runs c b b') :
    l.Runs c' b b' := by
  have uses := (hm.uses_eq hc).trans (hm.uses_eq hc').symm
  have state := fun x => (hm.state_eq hc l.kind x).trans (hm.state_eq hc' l.kind x).symm
  have front : l.front c b = l.front c' b := by rw [Line.front, uses]; rfl
  refine ⟨uses ▸ h.consistent, h.count, h.distinct, front ▸ h.fresh, ?_⟩
  rw [← state, ← front]
  exact h.created

/-- Lines do the same to a block in every context of plain types. -/
theorem RunAll.change_context {ls : List Line} (hm : ∀ l ∈ ls, l.statement.Plain) (hc : c.Plain) (hc' : c'.Plain)
    (h : RunAll ls c b b') : RunAll ls c' b b' := by
  induction ls generalizing c c' b with
  | nil => exact h
  | cons l ls ih =>
    obtain ⟨b₁, hrun, hrest⟩ := h
    have hl := hm l List.mem_cons_self
    exact ⟨b₁, hrun.change_context hl hc hc', ih (fun x hx => hm x (List.mem_cons_of_mem _ hx)) (hl.context hc)
      (hl.context hc') hrest⟩

end Line

end GateAsm
