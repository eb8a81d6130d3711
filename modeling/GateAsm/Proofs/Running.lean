import GateAsm.Proofs.PlainTypes
import GateAsm.Proofs.Saying

/-!
# Lines that have run

In a block that lines have built every value has a type that can be written, and no operation uses a value
without a name, since names are all that a line has for its operands. Each line leaves an operation that is
shown as that line, whatever runs afterwards.
-/

namespace GateAsm

namespace Block

def Typed (b : Block) : Prop := ∀ id < b.values.length, ∃ t : Ty, b.typeOf id = .type t ∧ t.Readable

def Quiet (b : Block) : Prop := ∀ id < b.values.length, b.isAnonymous id = true → b.isUnused id = true

/-- The block is one as lines leave it. -/
structure Clean (b : Block) : Prop where
  wellScoped : b.WellScoped
  typed : b.Typed
  quiet : b.Quiet

theorem clean_empty : Block.empty.Clean := ⟨wellScoped_empty, nofun, nofun⟩

section
variable {b b' : Block} {id : Nat} {n : String} {t : Ty}

theorem isAnonymous_of_name (hid : id < b.values.length) (h : b.nameOf id = .text n) :
    b.isAnonymous id = n.startsWith anonymousMark := by
  have hv := Block.value?_of_lt hid
  simp only [nameOf, hv, Option.map_some, Option.getD_some] at h
  simp only [isAnonymous, hv, Option.map_some, Option.getD_some, Value.isAnonymous, h, Label.text?]

theorem Extends.isAnonymous_eq (h : b.Extends b') (hid : id < b.values.length) :
    b'.isAnonymous id = b.isAnonymous id := by
  have hv := Block.value?_of_lt hid
  have hid' : id < b'.values.length := Nat.lt_of_lt_of_le hid h.length_le
  have hv' := Block.value?_of_lt hid'
  have hname := h.nameOf id hid
  simp only [Block.nameOf, hv, hv', Option.map_some, Option.getD_some] at hname
  simp only [isAnonymous, hv, hv', Option.map_some, Option.getD_some, Value.isAnonymous, hname]

/-! ## Inputs -/

theorem isUnused_withInput (id : Nat) : (b.withInput n t).isUnused id = b.isUnused id := by
  have hv : (b.withInput n t).value? id =
      if id = b.values.length then some ⟨.text n, .type t, none, []⟩ else b.value? id :=
    value?_enter b (.type t) (.text n) id
  rw [isUnused, isUnused, hv]
  split
  · next h => rw [h, value?, List.getElem?_eq_none (Nat.le_refl _)]; rfl
  · rfl

theorem length_withInput : (b.withInput n t).values.length = b.values.length + 1 := by simp [withInput, enter]

theorem Typed.withInput (h : b.Typed) (ht : t.Readable) : (b.withInput n t).Typed := by
  intro id hid
  rw [length_withInput] at hid
  rcases Nat.lt_succ_iff_lt_or_eq.mp hid with hid | rfl
  · rw [extends_withInput.typeOf id hid]; exact h id hid
  · exact ⟨t, typeOf_withInput, ht⟩

theorem Clean.withInput (h : b.Clean) (hn : Visible n) (ht : t.Readable) : (b.withInput n t).Clean where
  wellScoped := wellScoped_withInput h.wellScoped
  typed := h.typed.withInput ht
  quiet id hid ha := by
    rw [isUnused_withInput]
    rcases Nat.lt_succ_iff_lt_or_eq.mp (length_withInput ▸ hid) with hlt | rfl
    · exact h.quiet id hlt (extends_withInput.isAnonymous_eq hlt ▸ ha)
    · rw [isAnonymous_of_name hid nameOf_withInput, hn] at ha; cases ha

theorem Clean.mentionAll {uses : List (String × Ty)} (h : b.Clean) (hv : ∀ u ∈ uses, Visible u.1)
    (ht : ∀ u ∈ uses, u.2.Readable) : (b.mentionAll uses).Clean :=
  mentionAll_induction h fun _ hc u hu _ => hc.withInput (hv u hu) (ht u hu)

theorem Consistent.found {uses : List (String × Ty)} (hb : b.WellScoped) (hv : ∀ u ∈ uses, Visible u.1)
    (h : b.Consistent uses) :
    ∀ u ∈ uses, ∃ id, (b.mentionAll uses).lookup u.1 = some id ∧ (b.mentionAll uses).HasType id u.2 := by
  induction uses generalizing b with
  | nil => nofun
  | cons u uses ih =>
    obtain ⟨first, rest⟩ := (consistent_cons_iff hb hv).mp h
    have hvis : Visible u.1 := hv u List.mem_cons_self
    intro x hx
    rcases List.mem_cons.mp hx with rfl | hx
    · have hlook := lookup_mention_self (b := b) (t := x.2) hvis
      have typed : (b.mention x).HasType ((b.lookup x.1).getD b.values.length) x.2 := by
        cases hl : b.lookup x.1 with
        | some id => exact (HasType.extend (extends_mention x) (lookup_lt hb hl)).mpr (first id hl)
        | none => exact (hasType_type (typeOf_mention hl)).mpr (Ty.same_self _)
      have hlt := lookup_lt (wellScoped_mention hb x) hlook
      exact ⟨_, lookup_mentionAll_of_some hvis hlook uses, (HasType.extend (extends_mentionAll uses) hlt).mpr typed⟩
    · exact ih (wellScoped_mention hb u) (fun y hy => hv y (List.mem_cons_of_mem _ hy)) rest x hx

/-! ## Results -/

theorem Creates.result {s : OperationState} {labels : List (Option Label)} {operands : List Nat}
    (h : b.Creates s labels operands b') (hid : id < b'.values.length) :
    id < b.values.length ∨ ∃ i type label, id = b.values.length + i ∧ s.resultTypes[i]? = some type ∧
      labels[i]? = some label ∧ b'.typeOf id = type ∧ GivenName (b'.nameOf id) label := by
  rcases Nat.lt_or_ge id b.values.length with hlt | hge
  · exact .inl hlt
  · obtain ⟨i, rfl⟩ := Nat.exists_eq_add_of_le hge
    have hi : i < s.resultTypes.length := by rw [h.length] at hid; omega
    have hl : i < labels.length := h.count ▸ hi
    obtain ⟨htype, hname⟩ := h.item i _ _ (List.getElem?_eq_getElem hi) (List.getElem?_eq_getElem hl)
    exact .inr ⟨i, _, _, rfl, List.getElem?_eq_getElem hi, List.getElem?_eq_getElem hl, htype, hname⟩

theorem Creates.typed {s : OperationState} {labels : List (Option Label)} {operands : List Nat}
    (h : b.Creates s labels operands b') (hb : b.Typed)
    (hr : ∀ type ∈ s.resultTypes, ∃ t : Ty, type = .type t ∧ t.Readable) : b'.Typed := by
  intro id hid
  rcases h.result hid with hlt | ⟨i, type, label, rfl, htype, -, he, -⟩
  · rw [h.extends_.typeOf id hlt]; exact hb id hlt
  · rw [he]; exact hr type (List.mem_of_getElem? htype)

theorem Creates.quiet {s : OperationState} {labels : List (Option Label)} {operands : List Nat}
    (h : b.Creates s labels operands b') (hb : b.Quiet)
    (hops : ∀ id ∈ operands, id < b.values.length ∧ b.isAnonymous id = false) : b'.Quiet := by
  intro id hid ha
  rw [h.unused id hid]
  have free : operands.contains id = false := by
    rw [List.contains_eq_mem, decide_eq_false_iff_not]
    intro hmem
    obtain ⟨hlt, hnamed⟩ := hops id hmem
    rw [h.extends_.isAnonymous_eq hlt, hnamed] at ha
    cases ha
  rw [free, Bool.not_false, Bool.and_true]
  rcases Nat.lt_or_ge id b.values.length with hlt | hge
  · exact hb id hlt (h.extends_.isAnonymous_eq hlt ▸ ha)
  · rw [isUnused, value?, List.getElem?_eq_none hge]; rfl

theorem Creates.result_of_mem {s : OperationState} {labels : List (Option Label)} {operands : List Nat}
    (h : b.Creates s labels operands b') (hid : id ∈ List.range' b.values.length s.resultTypes.length) :
    id < b'.values.length ∧ ∃ label ∈ labels, GivenName (b'.nameOf id) label := by
  obtain ⟨hle, hlt⟩ := List.mem_range'_1.mp hid
  have hlt' : id < b'.values.length := by rw [h.length]; exact hlt
  refine ⟨hlt', ?_⟩
  rcases h.result hlt' with hold | ⟨i, type, label, -, -, hl, -, hname⟩
  · omega
  · exact ⟨label, List.mem_of_getElem? hl, hname⟩

theorem Creates.typesOf_results {s : OperationState} {labels : List (Option Label)} {operands : List Nat}
    (h : b.Creates s labels operands b') :
    b'.typesOf (List.range' b.values.length s.resultTypes.length) = s.resultTypes := by
  refine List.ext_getElem (by simp [typesOf]) fun i hi hi' => ?_
  have hl : i < labels.length := h.count ▸ hi'
  have := (h.item i _ _ (List.getElem?_eq_getElem hi') (List.getElem?_eq_getElem hl)).1
  simpa [typesOf] using this

theorem Creates.names_results {s : OperationState} {labels : List (Option Label)} {operands : List Nat}
    {ns : List String} (h : b.Creates s labels operands b') (hl : labels = ns.map fun n => some (.text n)) :
    (List.range' b.values.length s.resultTypes.length).map b'.nameOf = ns.map .text := by
  have hcount := h.count
  subst hl
  rw [List.length_map] at hcount
  refine List.ext_getElem (by simp [hcount]) fun i hi hi' => ?_
  have hi1 : i < s.resultTypes.length := by simpa using hi
  have hi2 : i < ns.length := hcount ▸ hi1
  have := (h.item i _ (some (.text ns[i])) (List.getElem?_eq_getElem hi1) (by simp [hi2])).2
  simpa [GivenName] using this

theorem Typed.typeOf_eq (h : b.Typed) (hid : id < b.values.length) (ht : t.plain = t) (hty : b.HasType id t) :
    b.typeOf id = .type t := by
  obtain ⟨u, hu, readable⟩ := h id hid
  have same := Ty.same_iff.mp ((hasType_type hu).mp hty)
  rw [hu, ← readable.plain, same, ht]

end

end Block

/-! ## Operations -/

section
variable {r : Registry} {l : Line} {m : Statement} {k : Kind} {c : TypeContext} {b b' : Block} {op : Operation}

theorem Ty.readable_index : Ty.index.Readable := ⟨rfl, trivial, nofun, nofun⟩

theorem Statement.Writable.plain (h : m.Writable k) : m.Plain :=
  ⟨fun t ht => (h.readable t ht).plain, fun t ht => (h.results t ht).plain⟩

theorem Statement.Writable.uses_ok (h : m.Writable k) : ∀ u ∈ m.writtenUses, IsValueName u.1 ∧ u.2.Readable := by
  intro u hu
  obtain ⟨hn, ht⟩ := List.of_mem_zip hu
  refine ⟨h.physical_named _ hn, ?_⟩
  rcases Parser.mem_operandTypes ht with he | ht
  · rw [he]; exact Ty.readable_index
  · exact h.readable _ ht

def Line.valueOf (l : Line) (c : TypeContext) (b : Block) (n : String) : Nat := ((l.front c b).lookup n).getD 0

theorem Line.Runs.recorded (h : l.Runs c b b') (hm : l.statement.Lawful l.kind) :
    ∃ op, b'.operations = b.operations ++ [op] ∧
      op.Records l.kind (l.statement.content.map (l.valueOf c b)) l.statement.tags ∧
      op.results = List.range' (l.front c b).values.length l.statement.results.length := by
  obtain ⟨operands, hc⟩ := h.creates
  obtain ⟨name, hops⟩ := hc.operations
  have present : operands = (l.statement.content.map (l.valueOf c b)).physical := by
    have := hc.present
    rw [Content.physical_map]
    exact (List.map_inj_right fun _ _ => Option.some.inj).mp this.symm
  have attrs : (l.statement.state c l.kind (l.front c b)).attrs =
      (l.statement.content.map (l.valueOf c b)).structural l.kind ++ l.statement.tags := by
    rw [Content.structural_map]; rfl
  have count := Parser.length_resultTypes l.statement c l.kind (l.front c b)
  rw [Line.front, Block.operations_mentionAll, ← Line.front, attrs, count, present] at hops
  exact ⟨_, hops, .of_append (Content.fits_map.mpr hm.fits) hm.tags, rfl⟩

theorem Line.front_clean (hw : l.Writable r) (hb : b.Clean) (hc : c.Plain) : (l.front c b).Clean := by
  have uses := hw.statement.uses_ok
  rw [Line.front, hw.statement.plain.uses_eq hc]
  exact hb.mentionAll (fun u hu => (uses u hu).1.visible) fun u hu => (uses u hu).2

/-- Every operand of a line that runs is in scope, and has the type that is written for it. -/
theorem Line.Runs.found (h : l.Runs c b b') (hw : l.Writable r) (hb : b.Clean) (hc : c.Plain) :
    ∀ u ∈ l.statement.writtenUses, (l.front c b).lookup u.1 = some (l.valueOf c b u.1) ∧
      (l.front c b).typeOf (l.valueOf c b u.1) = .type u.2 := by
  intro u hu
  have uses := hw.statement.uses_ok
  have hfront := Line.front_clean hw hb hc
  have hcons := h.consistent
  rw [hw.statement.plain.uses_eq hc] at hcons
  obtain ⟨id, hl, hty⟩ := hcons.found hb.wellScoped (fun u hu => (uses u hu).1.visible) u hu
  rw [← hw.statement.plain.uses_eq hc] at hl hty
  have hl : (l.front c b).lookup u.1 = some id := hl
  have value : l.valueOf c b u.1 = id := by rw [Line.valueOf, hl]; rfl
  rw [value]
  exact ⟨hl, hfront.typed.typeOf_eq (Block.lookup_lt hfront.wellScoped hl) (uses u hu).2.plain hty⟩

theorem Line.Runs.named (h : l.Runs c b b') (hw : l.Writable r) (hb : b.Clean) (hc : c.Plain) :
    ∀ n ∈ l.statement.content.physical, l.valueOf c b n < (l.front c b).values.length ∧
      (l.front c b).nameOf (l.valueOf c b n) = .text n := by
  intro n hn
  rw [← hw.statement.used] at hn
  obtain ⟨u, hu, rfl⟩ := List.mem_map.mp hn
  have hscoped := (Line.front_clean hw hb hc).wellScoped
  have hl := (h.found hw hb hc u hu).1
  exact ⟨Block.lookup_lt hscoped hl, Block.nameOf_of_lookup hscoped hl⟩

/-- A line leaves a clean block behind it. -/
theorem Line.Runs.clean (h : l.Runs c b b') (hw : l.Writable r) (hb : b.Clean) (hc : c.Plain) : b'.Clean := by
  have hfront := Line.front_clean hw hb hc
  have named := h.named hw hb hc
  obtain ⟨operands, hcr⟩ := h.creates
  refine ⟨h.wellScoped hb.wellScoped, hcr.typed hfront.typed fun type htype => ?_,
    hcr.quiet hfront.quiet fun id hid => ?_⟩
  · rw [hw.statement.plain.state_eq hc] at htype
    obtain ⟨t, ht, rfl⟩ := List.mem_map.mp htype
    exact ⟨t, rfl, hw.statement.results t ht⟩
  · have present : operands = l.statement.content.physical.map (l.valueOf c b) :=
      ((List.map_inj_right fun _ _ => Option.some.inj).mp hcr.present).symm
    rw [present] at hid
    obtain ⟨n, hn, rfl⟩ := List.mem_map.mp hid
    obtain ⟨hlt, hname⟩ := named n hn
    exact ⟨hlt, (Block.isAnonymous_of_name hlt hname).trans (hw.statement.physical_named n hn).visible⟩

/-- The operation is one that a run of the line has left in the block. -/
structure Block.Leaves (b : Block) (op : Operation) (l : Line) : Prop where
  shown : b.Shows [] op l
  operands : ∀ id ∈ op.operands, id < b.values.length
  results : ∀ id ∈ op.results, id < b.values.length ∧ ((b.nameOf id).text?).isSome = true
  uniform : (∀ id ∈ op.results, b.isAnonymous id = true) ∨ ∀ id ∈ op.results, b.isAnonymous id = false

theorem Line.Runs.said (h : l.Runs c b b') (hw : l.Writable r) (hb : b.Clean) (hc : c.Plain)
    (hrec : op.Records l.kind (l.statement.content.map (l.valueOf c b)) l.statement.tags)
    (hres : op.results = List.range' (l.front c b).values.length l.statement.results.length) :
    b'.Says [] op l.kind (l.statement.content.map (l.valueOf c b)) l.statement := by
  obtain ⟨operands, hcr⟩ := h.creates
  have named := h.named hw hb hc
  have names : ∀ n ∈ l.statement.content.physical, b'.nameOf (l.valueOf c b n) = .text n := fun n hn =>
    (hcr.extends_.nameOf _ (named n hn).1).trans (named n hn).2
  have texts : ∀ n ∈ l.statement.content.physical, b'.shownText [] (l.valueOf c b n) = n := fun n hn =>
    Block.shownText_eq [] (names n hn)
  have typed : ∀ u ∈ l.statement.writtenUses, b'.typeOf (l.valueOf c b u.1) = .type u.2 := by
    intro u hu
    have hn : u.1 ∈ l.statement.content.physical := hw.statement.used ▸ List.mem_map_of_mem hu
    exact (hcr.extends_.typeOf _ (named u.1 hn).1).trans (h.found hw hb hc u hu).2
  obtain ⟨mains, indices⟩ := (forall_written_iff (fun n => b'.typeOf (l.valueOf c b n)) hw.statement.flags).mp typed
  refine ⟨hrec, ?_, ?_, ?_, ?_, ?_⟩
  · rw [Content.map_map]; exact (Content.map_eq_self texts).symm
  · intro id hid
    rw [hrec.operands, Content.physical_map] at hid
    obtain ⟨n, hn, rfl⟩ := List.mem_map.mp hid
    exact (names n hn).trans (congrArg _ (texts n hn).symm)
  · rw [Content.mains_map, Block.typesOf, List.map_map, Content.mains_eq_filter]; exact mains
  · intro x hx hpinned
    rw [Content.flagged_map] at hx
    obtain ⟨y, hy, rfl⟩ := List.mem_map.mp hx
    exact indices y hy hpinned
  · have := hcr.typesOf_results
    rw [hw.statement.plain.state_eq hc] at this
    rw [hres]
    simpa [Statement.writtenState] using this

theorem Line.Runs.results (h : l.Runs c b b')
    (hres : op.results = List.range' (l.front c b).values.length l.statement.results.length) :
    op.results.map b'.nameOf = l.names.map .text ∨
      l.names = [] ∧ ∀ id ∈ op.results, ∃ s, b'.nameOf id = .text (anonymousMark ++ s) := by
  obtain ⟨operands, hcr⟩ := h.creates
  have count := Parser.length_resultTypes l.statement c l.kind (l.front c b)
  rw [← count] at hres
  cases hnames : l.names with
  | nil =>
    refine .inr ⟨rfl, fun id hid => ?_⟩
    obtain ⟨-, label, hlabel, given⟩ := hcr.result_of_mem (hres ▸ hid)
    simp only [labels, hnames, List.isEmpty_nil, if_true, Option.getD_none] at hlabel
    obtain ⟨-, -, rfl⟩ := List.mem_map.mp hlabel
    exact given
  | cons n ns =>
    refine .inl ?_
    rw [hres, ← hnames]
    exact hcr.names_results (by simp [labels, hnames])

theorem startsWith_anonymous (s : String) : (anonymousMark ++ s).startsWith anonymousMark = true := by
  rw [String.startsWith_string_iff, String.toList_append]
  exact List.prefix_append _ _

theorem Line.bound_of_results {results : List Nat} (hn : ∀ n ∈ l.names, Block.Visible n)
    (h : results.map b.nameOf = l.names.map .text ∨
      l.names = [] ∧ ∀ id ∈ results, ∃ s, b.nameOf id = .text (anonymousMark ++ s)) :
    ∃ ts : List String, results.map (b.shownName []) = ts.map .text ∧
      l.names = if ts.any (·.startsWith anonymousMark) then [] else ts := by
  rcases h with h | ⟨hempty, h⟩
  · refine ⟨l.names, h, (if_neg ?_).symm⟩
    rw [Bool.not_eq_true, List.any_eq_false]
    intro n hmem
    rw [hn n hmem]; exact nofun
  · have shown : ∀ id ∈ results, b.shownName [] id = .text (b.shownText [] id) := by
      intro id hid
      obtain ⟨s, hs⟩ := h id hid
      exact hs.trans (congrArg _ (Block.shownText_eq [] hs).symm)
    refine ⟨results.map (b.shownText []), by rw [List.map_map]; exact List.map_congr_left shown, ?_⟩
    cases results with
    | nil => simpa using hempty
    | cons id ids =>
      obtain ⟨s, hs⟩ := h id List.mem_cons_self
      rw [hempty, List.map_cons, List.any_cons, Block.shownText_eq [] hs, startsWith_anonymous]
      rfl

/-- A line leaves an operation behind the others that is shown as the line. -/
theorem Line.Runs.leaves (h : l.Runs c b b') (hw : l.Writable r) (hb : b.Clean) (hc : c.Plain) :
    ∃ op, b'.operations = b.operations ++ [op] ∧ b'.Leaves op l := by
  obtain ⟨op, hops, hrec, hres⟩ := h.recorded hw.statement.toLawful
  obtain ⟨operands, hcr⟩ := h.creates
  have visible : ∀ n ∈ l.names, Block.Visible n := fun n hn => (hw.names n hn).visible
  have count := Parser.length_resultTypes l.statement c l.kind (l.front c b)
  have inside : ∀ id ∈ op.results, id < b'.values.length := fun id hid =>
    (hcr.result_of_mem (by rw [count, ← hres]; exact hid)).1
  have results := h.results hres
  refine ⟨op, hops, ⟨⟨_, h.said hw hb hc hrec hres⟩, bound_of_results visible results⟩, fun id hid => ?_,
    fun id hid => ⟨inside id hid, ?_⟩, ?_⟩
  · rw [hrec.operands, Content.physical_map] at hid
    obtain ⟨n, hn, rfl⟩ := List.mem_map.mp hid
    exact Nat.lt_of_lt_of_le (h.named hw hb hc n hn).1 hcr.extends_.length_le
  · rcases results with results | ⟨-, results⟩
    · obtain ⟨n, -, hn⟩ := List.mem_map.mp (results ▸ List.mem_map_of_mem hid)
      rw [← hn]; rfl
    · obtain ⟨s, hs⟩ := results id hid
      rw [hs]; rfl
  · rcases results with results | ⟨-, results⟩
    · refine .inr fun id hid => ?_
      obtain ⟨n, hn, hname⟩ := List.mem_map.mp (results ▸ List.mem_map_of_mem hid)
      exact (Block.isAnonymous_of_name (inside id hid) hname.symm).trans (visible n hn)
    · refine .inl fun id hid => ?_
      obtain ⟨s, hs⟩ := results id hid
      exact (Block.isAnonymous_of_name (inside id hid) hs).trans (startsWith_anonymous s)

/-! ## Several lines -/

theorem Block.Says.extend {content : Content Nat} (h : b.Says [] op k content m) (he : b.Extends b')
    (hops : ∀ id ∈ op.operands, id < b.values.length) (hres : ∀ id ∈ op.results, id < b.values.length) :
    b'.Says [] op k content m := by
  have operands : ∀ id ∈ content.physical, id < b.values.length := h.records.operands ▸ hops
  have texts : ∀ id ∈ content.physical, b'.shownText [] id = b.shownText [] id := fun id hid =>
    congrArg (fun l : Label => l.text?.getD "") (he.nameOf id (operands id hid))
  have mains : ∀ id ∈ content.mains, id ∈ content.physical := by
    intro id hid
    rw [Content.mains_eq_filter] at hid
    obtain ⟨x, hx, rfl⟩ := List.mem_map.mp hid
    exact List.mem_map_of_mem (List.mem_filter.mp hx).1
  refine ⟨h.records, h.content.trans (Content.map_congr fun id hid => (texts id hid).symm), fun id hid => ?_, ?_,
    fun x hx hpinned => ?_, ?_⟩
  · rw [texts id (h.records.operands ▸ hid)]
    exact (he.nameOf id (hops id hid)).trans (h.shown id hid)
  · rw [← h.types]
    exact List.map_congr_left fun id hid => he.typeOf id (operands id (mains id hid))
  · rw [he.typeOf _ (operands _ (List.mem_map_of_mem hx))]
    exact h.indices x hx hpinned
  · rw [← h.results]
    exact List.map_congr_left fun id hid => he.typeOf id (hres id hid)

theorem Block.Leaves.extend (h : b.Leaves op l) (he : b.Extends b') : b'.Leaves op l := by
  have inside : ∀ id ∈ op.results, id < b.values.length := fun id hid => (h.results id hid).1
  obtain ⟨ts, shown, bound⟩ := h.shown.bound
  obtain ⟨content, said⟩ := h.shown.said
  refine ⟨⟨⟨content, said.extend he h.operands inside⟩, ts, ?_, bound⟩, fun id hid => ?_, fun id hid => ⟨?_, ?_⟩, ?_⟩
  · rw [← shown]
    exact List.map_congr_left fun id hid => he.nameOf id (inside id hid)
  · exact Nat.lt_of_lt_of_le (h.operands id hid) he.length_le
  · exact Nat.lt_of_lt_of_le (inside id hid) he.length_le
  · rw [he.nameOf id (inside id hid)]
    exact (h.results id hid).2
  · exact h.uniform.imp (fun ha id hid => (he.isAnonymous_eq (inside id hid)).trans (ha id hid))
      fun ha id hid => (he.isAnonymous_eq (inside id hid)).trans (ha id hid)

theorem Line.RunAll.leaves {ls : List Line} (h : RunAll ls c b b') (hw : ∀ l ∈ ls, l.Writable r) (hb : b.Clean)
    (hc : c.Plain) : b'.Clean ∧ b.Extends b' ∧
      ∃ ops, b'.operations = b.operations ++ ops ∧ Paired b'.Leaves ops ls := by
  induction ls generalizing b c with
  | nil =>
    obtain rfl : b' = b := h
    exact ⟨hb, .refl b', [], (List.append_nil _).symm, trivial⟩
  | cons l ls ih =>
    obtain ⟨b₁, hrun, hrest⟩ := h
    have hl := hw l List.mem_cons_self
    obtain ⟨op, hops, hleaves⟩ := hrun.leaves hl hb hc
    obtain ⟨hclean, he, ops, hops', hpaired⟩ := ih hrest (fun x hx => hw x (List.mem_cons_of_mem _ hx))
      (hrun.clean hl hb hc) (hl.statement.plain.context hc)
    refine ⟨hclean, hrun.extends.trans he, op :: ops, ?_, hleaves.extend he, hpaired⟩
    rw [hops', hops, List.append_assoc, List.singleton_append]

end

end GateAsm
