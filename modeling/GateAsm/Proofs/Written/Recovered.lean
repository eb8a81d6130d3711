import GateAsm.Proofs.Written.Lines

/-!
# Lines that are read can be written

What a text comes to is made of the words of the text, so that its names are names and its numbers are not
too long. So it can be written as well, and reading what is written changes nothing: it has no lists to turn
into tuples.
-/

namespace GateAsm

/-! ## Words of parts -/

theorem mem_marked {k : TokenKind} {ws : List TypeSyntax} {w : TypeSyntax} {x : Word} (hw : w ∈ ws) (hx : x ∈ w.words) :
    x ∈ TypeSyntax.marked k ws := by
  cases ws with
  | nil => cases hw
  | cons v vs => exact List.mem_cons_of_mem _ (mem_listed (List.mem_map_of_mem hw) hx)

theorem mem_braced {tags : Option (List (String × LiteralSyntax))} {e : String × LiteralSyntax} {x : Word}
    (he : e ∈ tags.getD []) (hx : x ∈ tagWords e) : x ∈ bracedWords tags := by
  cases tags with
  | none => cases he
  | some es =>
    refine List.mem_cons_of_mem _ (List.mem_append_left _ ?_)
    exact mem_listed (List.mem_map_of_mem he) hx

theorem mem_operandWords {os : List OperandSyntax} {o : OperandSyntax} {x : Word} (ho : o ∈ os) (hx : x ∈ o.words) :
    x ∈ GroupSyntax.operandWords os := mem_listed (List.mem_map_of_mem ho) hx

theorem mem_argumentWords {os : List OperandSyntax} {o : OperandSyntax} {x : Word} (ho : o ∈ os) (hx : x ∈ o.words) :
    x ∈ CallSyntax.argumentWords os :=
  List.mem_flatMap.mpr ⟨o.words, List.mem_map_of_mem ho, List.mem_cons_of_mem _ hx⟩

theorem named_of_fillers? {os : List OperandSyntax} {fs : List (Filler String)}
    (hs : ∀ o ∈ os, ∀ x ∈ o.words, x.Spelled) (h : OperandSyntax.fillers? os = some fs) : ∀ f ∈ fs, f.Named := by
  intro f hf
  have named : ∀ n, n = f.main ∨ n ∈ f.references → IsValueName n := by
    intro n hn
    obtain ⟨o, ho, hx⟩ := Parser.fillers_words h hf hn
    exact hs o ho _ hx
  exact ⟨named _ (.inl rfl), fun n hn => named n (.inr hn)⟩

section
variable {env : ParserEnv} {k : Kind} {m : Statement}

theorem GroupSyntax.States.writes {g : GroupSyntax} (hs : ∀ x ∈ g.words, x.Spelled) (h : g.States env k m) :
    m.content.head.Writable ∧ WritableTags m.tags ∧ tupledTags m.tags = m.tags := by
  obtain ⟨a, fs, ha, -, hc⟩ := h.content
  have angle : ∀ x ∈ g.angle.words, x.Spelled := fun x hx => hs x (List.mem_append_left _ hx)
  have tags : ∀ e ∈ g.tags.getD [], ∀ x ∈ tagWords e, x.Spelled := fun e he x hx =>
    hs x (List.mem_append_right _ (List.mem_append_right _ (List.mem_append_left _ (mem_braced he hx))))
  refine ⟨?_, writable_of_tagValues? tags h.tags⟩
  rw [hc]
  cases a with
  | absent => trivial
  | literal x =>
    cases hw : g.angle with
    | float d | int d =>
      rw [hw] at ha
      obtain ⟨y, hy, he⟩ := Option.map_eq_some_iff.mp ha
      cases he
      exact Double.readsBack_of_floatLiteral? hy
    | _ => rw [hw] at ha; simp [AngleSyntax.angle?] at ha
  | reference r =>
    cases hw : g.angle with
    | reference n =>
      rw [hw] at ha angle
      obtain rfl : n = r := by simpa [AngleSyntax.angle?] using ha
      exact angle ⟨.valueName, n⟩ (by simp [AngleSyntax.words, AngleSyntax.inside])
    | _ => rw [hw] at ha; simp [AngleSyntax.angle?] at ha

theorem CallSyntax.front_spelled {g : CallSyntax} (hs : ∀ x ∈ g.words, x.Spelled) : ∀ x ∈ g.front, x.Spelled :=
  fun x hx => hs x (List.mem_append_left _ hx)

theorem CallSyntax.States.writes {g : CallSyntax} (hs : ∀ x ∈ g.words, x.Spelled) (h : g.States env.registry k m) :
    m.content.head.Writable ∧ WritableTags m.tags ∧ tupledTags m.tags = m.tags := by
  obtain ⟨n, fs, hn, -, hc⟩ := h.content
  have front := CallSyntax.front_spelled hs
  have tags : ∀ e ∈ g.tags.getD [], ∀ x ∈ tagWords e, x.Spelled := fun e he x hx =>
    hs x (List.mem_append_right _ (List.mem_append_left _ (mem_braced he hx)))
  have callee : IsName (String.ofList (g.callee.toList.drop 1)) := front ⟨.symbolName, g.callee⟩ List.mem_cons_self
  have count : FewDigits n := fewDigits_of_intLiteral? (front ⟨.int, g.count⟩ (by simp [CallSyntax.front])) hn
  refine ⟨?_, writable_of_tagValues? tags h.tags⟩
  rw [hc]
  exact ⟨callee, count⟩

theorem BodySyntax.States.writes {g : BodySyntax} (hs : ∀ x ∈ g.words, x.Spelled) (h : g.States env k m) :
    m.content.head.Writable ∧ WritableTags m.tags ∧ tupledTags m.tags = m.tags := by
  cases g with
  | generic g => exact h.2.writes hs
  | call g => exact h.2.writes hs

end

namespace Statement

variable {env : ParserEnv} {k : Kind} {m : Statement}

theorem writable_of_group {g : GroupSyntax} (hs : ∀ x ∈ g.words, x.Spelled) (hcall : k.callForm = false)
    (hname : IsName k.name) (h : g.States env k m) : m.Writable k ∧ m.tupled = m := by
  obtain ⟨a, fs, -, hfs, hc⟩ := h.content
  have operands : ∀ o ∈ g.operands, ∀ x ∈ o.words, x.Spelled := fun o ho x hx =>
    hs x (List.mem_append_right _ (List.mem_append_left _ (mem_operandWords ho hx)))
  have types : ∀ w ∈ g.types, ∀ x ∈ w.words, x.Spelled := fun w hw x hx =>
    hs x (List.mem_append_right _ (List.mem_append_right _ (List.mem_append_right _
      (List.mem_append_left _ (mem_marked hw hx)))))
  have results : ∀ w ∈ g.results, ∀ x ∈ w.words, x.Spelled := fun w hw x hx =>
    hs x (List.mem_append_right _ (List.mem_append_right _ (List.mem_append_right _
      (List.mem_append_right _ (mem_marked hw hx)))))
  obtain ⟨head, own, same⟩ := h.writes hs
  refine ⟨⟨h.lawful hcall, hname, head, by rw [hc]; exact named_of_fillers? operands hfs, own,
    Ty.readable_of_tys? types h.types, Ty.readable_of_tys? results h.results, fun hk => ?_⟩, by rw [tupled, same]⟩
  rw [hcall] at hk; cases hk

theorem writable_of_call {g : CallSyntax} (hs : ∀ x ∈ g.words, x.Spelled) (hcall : k.callForm = true)
    (hname : IsName k.name) (h : g.States env.registry k m) : m.Writable k ∧ m.tupled = m := by
  obtain ⟨n, fs, -, hfs, hc⟩ := h.content
  obtain ⟨t, ht, hresults⟩ := h.results
  have operands : ∀ o ∈ g.arguments, ∀ x ∈ o.words, x.Spelled := fun o ho x hx => CallSyntax.front_spelled hs x (by
    simp only [CallSyntax.front, List.mem_cons, List.mem_append]
    exact .inr (.inr (.inr (.inl (mem_argumentWords ho hx)))))
  have types : ∀ w ∈ g.types, ∀ x ∈ w.words, x.Spelled := fun w hw x hx =>
    hs x (List.mem_append_right _ (List.mem_append_right _ (List.mem_append_left _ (mem_marked hw hx))))
  have result : ∀ x ∈ g.result.words, x.Spelled := fun x hx =>
    hs x (List.mem_append_right _ (List.mem_append_right _ (List.mem_append_right _ (List.mem_cons_of_mem _ hx))))
  obtain ⟨head, own, same⟩ := h.writes hs
  refine ⟨⟨h.lawful hcall, hname, head, by rw [hc]; exact named_of_fillers? operands hfs,
    own, Ty.readable_of_tys? types h.types, ?_, fun _ => ⟨t, hresults⟩⟩, by rw [tupled, same]⟩
  rw [hresults, List.forall_mem_singleton]
  exact Ty.readable_of_ty? result ht

end Statement

/-! ## Lines -/

/-- A line that is read can be written. -/
theorem LineSyntax.States.writable {env : ParserEnv} {x : LineSyntax} {l : Line} (h : x.States env none l)
    (hr : env.registry.Sound) (hs : ∀ w ∈ x.words, w.Spelled) :
    l.Writable env.registry ∧ l.tupled = l := by
  obtain ⟨hnames, hkind, hbody⟩ := h
  obtain ⟨names, mnemonic, body⟩ := x
  obtain ⟨lnames, k, m⟩ := l
  obtain rfl : names = lnames := hnames
  obtain rfl : k.name = mnemonic := hr.name_of_kind? hkind
  have first : ∀ n ∈ names, IsValueName n := by
    intro n hn
    refine hs ⟨.valueName, n⟩ (List.mem_append_left _ ?_)
    cases names with
    | nil => cases hn
    | cons n' ns =>
      refine List.mem_append_left _ (mem_listed (List.mem_map_of_mem hn) ?_)
      exact List.mem_singleton_self _
  have name : IsName k.name := hs ⟨.word, k.name⟩ (List.mem_append_right _ List.mem_cons_self)
  have rest : ∀ w ∈ body.words, w.Spelled := fun w hw =>
    hs w (List.mem_append_right _ (List.mem_cons_of_mem _ hw))
  have statement : m.Writable k ∧ m.tupled = m := by
    cases body with
    | generic g => exact Statement.writable_of_group rest hbody.1 name hbody.2
    | call g => exact Statement.writable_of_call rest hbody.1 name hbody.2
  exact ⟨⟨statement.1, first, hkind⟩, congrArg (Line.mk names k) statement.2⟩

end GateAsm
