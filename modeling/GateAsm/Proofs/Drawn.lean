import GateAsm.Proofs.Frame
import GateAsm.Proofs.Grammar.Operands

/-!
# References and their tokens

A reference that a parser answers with is a value name of the text that it consumed, with the position of that
token. `Parser.Draws` says so of a parser, and each building block that answers with references has one lemma here.
-/

namespace GateAsm

def NameAt (ts : List Token) (n : String) (place : Location) : Prop :=
  ∃ y ∈ ts, y.kind = .valueName ∧ y.text = n ∧ y.location = place

theorem NameAt.mono {ts us : List Token} {n : String} {place : Location} (h : NameAt ts n place) (hs : ts ⊆ us) :
    NameAt us n place := by
  obtain ⟨y, hy, found⟩ := h
  exact ⟨y, hs hy, found⟩

namespace Parser

/-- What the parser consumes holds the references of its answer, those apart that are known already. -/
def Draws {α : Type} (known : Reference → Prop) (refs : α → List Reference) (p : Parser α) : Prop :=
  ∀ s a t, Yields p s a t → ∃ used, s.rest = used ++ t.rest ∧ ∀ r ∈ refs a, known r ∨ NameAt used r.name r.location

section
variable {α β : Type} {known : Reference → Prop} {refs : α → List Reference} {out : β → List Reference} {p : Parser α}

theorem draws_pure {a : α} (h : ∀ r ∈ refs a, known r) : Draws known refs (pure a : Parser α) := by
  intro s b t hb
  obtain ⟨rfl, rfl⟩ := yields_pure.mp hb
  exact ⟨[], rfl, fun r hr => .inl (h r hr)⟩

theorem Draws.bind {f : α → Parser β} (hp : Draws known refs p)
    (hf : ∀ a, Draws (fun r => known r ∨ r ∈ refs a) out (f a)) : Draws known out (p >>= f) := by
  intro s b t h
  obtain ⟨a, u, ha, hb⟩ := yields_bind.mp h
  obtain ⟨first, hfirst, drawn⟩ := hp s a u ha
  obtain ⟨second, hsecond, later⟩ := hf a u b t hb
  refine ⟨first ++ second, by rw [hfirst, hsecond, List.append_assoc], fun r hr => ?_⟩
  rcases later r hr with (old | new) | at_
  · exact .inl old
  · exact (drawn r new).imp_right fun h => h.mono (List.subset_append_left _ _)
  · exact .inr (at_.mono (List.subset_append_right _ _))

theorem draws_ite {c : Prop} [Decidable c] {q : Parser α} (hp : Draws known refs p) (hq : Draws known refs q) :
    Draws known refs (if c then p else q) := by
  split
  · exact hp
  · exact hq

theorem draws_none (hp : Keeps (fun s t => t.rest <:+ s.rest) p) : Draws known (fun _ => []) p := by
  intro s a t h
  obtain ⟨used, hused⟩ := hp.yields h
  exact ⟨used, hused.symm, nofun⟩

theorem draws_fail {c : ParseCause} {l : Location} : Draws known refs (fail c l : Parser α) :=
  fun _ _ _ h => absurd h not_yields_fail

theorem Draws.all (hp : Draws (fun _ => False) refs p) {s t : ParserState} {a : α} (h : Yields p s a t) :
    ∃ used, s.rest = used ++ t.rest ∧ ∀ r ∈ refs a, NameAt used r.name r.location := by
  obtain ⟨used, hused, drawn⟩ := hp s a t h
  exact ⟨used, hused, fun r hr => (drawn r hr).resolve_left id⟩

end

section
variable {known : Reference → Prop} {s t : ParserState}

theorem nameAt_single (x : Token) (h : x.kind = .valueName) : NameAt [x] x.text x.location :=
  ⟨x, List.mem_singleton_self x, h, rfl, rfl⟩

/-! ## Operands -/

theorem draws_optionalOperand : Draws known Option.toList optionalOperand := by
  intro s o t h
  rcases yields_optionalOperand.mp h with ⟨x, ts, hr, hk, rfl, rfl⟩ | ⟨-, rfl, rfl⟩
  · refine ⟨[x], hr, fun r h => .inr ?_⟩
    rw [List.mem_singleton.mp h]
    exact nameAt_single x hk
  · exact ⟨[], rfl, nofun⟩

theorem draws_operand : Draws known (fun r => [r]) operand := by
  intro s r t h
  obtain ⟨x, ts, hr, hk, rfl, rfl⟩ := yields_operand.mp h
  refine ⟨[x], hr, fun r h => .inr ?_⟩
  rw [List.mem_singleton.mp h]
  exact nameAt_single x hk

theorem draws_component : Draws known (fun c => c.2.toList) component := by
  refine draws_optionalOperand.bind fun o => ?_
  cases o with
  | some r => exact draws_pure fun x hx => .inr hx
  | none =>
    refine (draws_none (frame_suffix.peek 0)).bind fun t => draws_ite draws_fail
      ((draws_none (frame_suffix.integerOf t)).bind fun n => draws_ite ?_ draws_fail)
    exact (draws_none frame_suffix.advance).bind fun _ => draws_pure nofun

theorem draws_components (room : Nat) : Draws known (fun cs => cs.filterMap (·.2)) (components room) := by
  induction room generalizing known with
  | zero => exact draws_pure nofun
  | succ room ih =>
    have one : ∀ (k : Reference → Prop) c, (∀ r ∈ c.2.toList, k r) → Draws k (fun cs => cs.filterMap (·.2))
        (pure [c] : Parser (List (Component × Option Reference))) := by
      intro k c hc
      refine draws_pure fun r hr => hc r ?_
      obtain ⟨x, hx, found⟩ := List.mem_filterMap.mp hr
      rw [List.mem_singleton.mp hx] at found
      exact Option.mem_toList.mpr found
    refine draws_component.bind fun c => draws_ite (one _ c fun _ h => .inr h) ?_
    refine (draws_none (frame_suffix.optional _)).bind fun _ => draws_ite (one _ c fun _ h => .inl (.inr h)) ?_
    refine ih.bind fun cs => draws_pure fun r hr => ?_
    obtain ⟨x, hx, found⟩ := List.mem_filterMap.mp hr
    rcases List.mem_cons.mp hx with rfl | hx
    · exact .inl (.inl (.inr (Option.mem_toList.mpr found)))
    · exact .inr (List.mem_filterMap.mpr ⟨x, hx, found⟩)

theorem draws_accessorList : Draws known (fun x => x.2) accessorList :=
  (draws_none (frame_suffix.optional _)).bind fun _ => draws_ite (draws_pure nofun)
    ((draws_none (frame_suffix.optional _)).bind fun _ => draws_ite (draws_pure nofun)
      ((draws_components _).bind fun _ => (draws_none (frame_suffix.expect _)).bind fun _ =>
        draws_pure fun _ h => .inl (.inr h)))

theorem draws_slotAccessor (slot : Slot) : Draws known (fun x => x.2) (slotAccessor slot) :=
  draws_ite draws_accessorList (draws_pure nofun)

def slotReferences (os : List SlotOperand) : List Reference := os.flatMap fun o => o.main :: o.references

theorem draws_slotOperands (kind : Kind) (slots : List Slot) (r : Reference) (hr : known r) :
    Draws known slotReferences (slotOperands kind slots r) := by
  induction slots generalizing r known with
  | nil => exact draws_fail
  | cons slot slots ih =>
    refine (draws_slotAccessor slot).bind fun x => (draws_none (frame_suffix.optional _)).bind fun _ => draws_ite ?_ ?_
    · refine draws_pure fun y hy => ?_
      rcases List.mem_cons.mp (by simpa [slotReferences] using hy : y ∈ r :: x.2) with rfl | hy
      · exact .inl (.inl hr)
      · exact .inl (.inr hy)
    · refine draws_operand.bind fun next => (ih next (.inr (List.mem_singleton_self next))).bind fun others =>
        draws_pure fun y hy => ?_
      rw [slotReferences, List.flatMap_cons, List.mem_append, List.mem_cons] at hy
      rcases hy with (rfl | hy) | hy
      · exact .inl (.inl (.inl (.inl hr)))
      · exact .inl (.inl (.inl (.inr hy)))
      · exact .inr hy

theorem draws_operandList (kind : Kind) : Draws known slotReferences (operandList kind) := by
  refine draws_optionalOperand.bind fun o => ?_
  cases o with
  | none => exact draws_pure nofun
  | some r => exact draws_slotOperands kind _ r (.inr (List.mem_singleton_self r))

theorem draws_angleInside (env : ParserEnv) (kind : Kind) : Draws known Angle.references (angleInside env kind) := by
  refine (draws_none frame_suffix.optionalFloat).bind fun x => ?_
  cases x with
  | some x => exact draws_pure nofun
  | none =>
    refine draws_optionalOperand.bind fun o => ?_
    cases o with
    | some r => exact draws_pure fun y hy => .inr hy
    | none =>
      refine (draws_none frame_suffix.location).bind fun l => draws_ite ?_ draws_fail
      exact (draws_none (Frame.modify fun s => frame_suffix.report s _)).bind fun _ =>
        (draws_none (frame_suffix.recordEvent _)).bind fun _ => draws_pure nofun

theorem draws_optionalAngle (env : ParserEnv) (kind : Kind) : Draws known Angle.references (optionalAngle env kind) :=
  draws_ite ((draws_none (frame_suffix.optional _)).bind fun _ => draws_ite (draws_pure nofun)
    ((draws_angleInside env kind).bind fun _ => (draws_none (frame_suffix.expect _)).bind fun _ =>
      draws_pure fun _ h => .inl (.inr h))) (draws_pure nofun)

def argumentReferences (as : List Argument) : List Reference := as.flatMap fun a => a.main :: a.references

theorem draws_arguments (fuel : Nat) : Draws known argumentReferences (arguments fuel) := by
  induction fuel generalizing known with
  | zero => exact draws_pure nofun
  | succ fuel ih =>
    refine (draws_none (frame_suffix.optional _)).bind fun _ => draws_ite (draws_pure nofun)
      (draws_operand.bind fun r => draws_accessorList.bind fun x => ih.bind fun others => draws_pure fun y hy => ?_)
    rw [argumentReferences, List.flatMap_cons, List.mem_append, List.mem_cons] at hy
    rcases hy with (rfl | hy) | hy
    · exact .inl (.inl (.inr (List.mem_singleton_self y)))
    · exact .inl (.inr hy)
    · exact .inr hy

/-! ## Result names -/

def tokenReferences (ts : List Token) : List Reference := ts.map fun t => ⟨t.text, t.location⟩

theorem draws_expectName (wanted : String) : Draws known (fun x => tokenReferences [x])
    (expectAs .valueName wanted) := by
  intro s x t h
  obtain ⟨ts, hr, hk, rfl⟩ := (yields_expectAs (by decide)).mp h
  refine ⟨[x], hr, fun r h => .inr ?_⟩
  rw [List.mem_singleton.mp h]
  exact nameAt_single x hk

theorem draws_optionalName : Draws known (fun o => tokenReferences o.toList) (optional .valueName) := by
  intro s o t h
  rcases (yields_optional (by decide)).mp h with ⟨x, ts, hr, hk, rfl, rfl⟩ | ⟨-, rfl, rfl⟩
  · refine ⟨[x], hr, fun r h => .inr ?_⟩
    rw [List.mem_singleton.mp h]
    exact nameAt_single x hk
  · exact ⟨[], rfl, nofun⟩

theorem draws_moreResultNames (fuel : Nat) : Draws known tokenReferences (moreResultNames fuel) := by
  induction fuel generalizing known with
  | zero => exact draws_pure nofun
  | succ fuel ih =>
    refine (draws_none (frame_suffix.optional _)).bind fun _ => draws_ite (draws_pure nofun)
      ((draws_expectName _).bind fun t => ih.bind fun ts => draws_pure fun r hr => ?_)
    rcases List.mem_cons.mp hr with rfl | hr
    · exact .inl (.inr (List.mem_singleton_self _))
    · exact .inr hr

theorem draws_resultNames : Draws known tokenReferences resultNames := by
  refine draws_optionalName.bind fun o => ?_
  cases o with
  | none => exact draws_pure nofun
  | some t =>
    refine (draws_none frame_suffix.get).bind fun s => (draws_moreResultNames _).bind fun ts =>
      (draws_none (frame_suffix.expect _)).bind fun _ => draws_pure fun r hr => ?_
    rcases List.mem_cons.mp hr with rfl | hr
    · exact .inl (.inl (.inl (.inr (List.mem_singleton_self _))))
    · exact .inl (.inr hr)

end

end Parser

end GateAsm
