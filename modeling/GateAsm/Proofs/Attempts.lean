import GateAsm.Proofs.Created
import GateAsm.Proofs.Rollback
import GateAsm.Proofs.UseDef

/-!
# Operations that are not created

The results of an operation enter the block one by one, in front of the operation. An attempt that stops at
a name that is taken leaves the results before it in scope, and one that stops at a missing operand leaves
all of them and counts as a use of the operands before it. Whatever is refused sooner changes nothing
(`Block.attempts_fail`).
-/

namespace GateAsm

def OperationState.present (s : OperationState) : List Nat := (s.operands.takeWhile Option.isSome).filterMap id

namespace Block

/-- The operations, the values by name, the inputs and all values with their uses are as before. -/
structure Unchanged (b b' : Block) : Prop where
  operations : b'.operations = b.operations
  scope : b'.scope = b.scope
  inputs : b'.inputs = b.inputs
  value : ∀ id < b.values.length, b'.value? id = b.value? id

/-- Values were added that are no inputs, as many as stand behind the scope of before. -/
structure Gathers (b : Block) (n : Nat) (b' : Block) : Prop where
  operations : b'.operations = b.operations
  inputs : b'.inputs = b.inputs
  scope : ∃ es, es.length = n ∧ b'.scope = b.scope ++ es
  values : b.values <+: b'.values
  abandoned : b'.abandoned = b.abandoned

def nextAbandoned (b : Block) : OperationRef := ⟨b.operations.length, some b.abandoned⟩

/-- Why no value is added under a name: it can be no name, or it is taken. -/
def Refuses (b : Block) (l : Label) (f : BlockFault) : Prop :=
  (l.isKey = false ∧ f = .notKey) ∨ ((b.inScope? l).isSome = true ∧ f = .valueExists l.display)

section
variable {b c d : Block} {m n : Nat}

theorem Unchanged.refl (b : Block) : b.Unchanged b := ⟨rfl, rfl, rfl, fun _ _ => rfl⟩

theorem Unchanged.usesOf (h : b.Unchanged c) {id : Nat} (hid : id < b.values.length) : c.usesOf id = b.usesOf id := by
  rw [Block.usesOf, h.value id hid, Block.usesOf]

theorem Gathers.refl (b : Block) : b.Gathers 0 b :=
  ⟨rfl, rfl, ⟨[], rfl, (List.append_nil _).symm⟩, List.prefix_refl _, rfl⟩

theorem Gathers.trans (h : b.Gathers m c) (h' : c.Gathers n d) : b.Gathers (m + n) d := by
  obtain ⟨es, hlen, hes⟩ := h.scope
  obtain ⟨es', hlen', hes'⟩ := h'.scope
  refine ⟨h'.operations.trans h.operations, h'.inputs.trans h.inputs, ⟨es ++ es', ?_, ?_⟩, h.values.trans h'.values,
    h'.abandoned.trans h.abandoned⟩
  · rw [List.length_append, hlen, hlen']
  · rw [hes', hes, List.append_assoc]

theorem Unchanged.eq_zero (h : b.Unchanged c) (scope : ∃ es, es.length = n ∧ c.scope = b.scope ++ es) : n = 0 := by
  obtain ⟨es, hlen, hes⟩ := scope
  have none : es = [] := List.append_right_eq_self.mp (hes.symm.trans h.scope)
  rw [← hlen, none]
  rfl

theorem Gathers.unchanged_iff (h : b.Gathers n c) : b.Unchanged c ↔ n = 0 := by
  constructor
  · intro same
    exact same.eq_zero h.scope
  · intro none
    obtain ⟨es, hlen, hes⟩ := h.scope
    rw [none] at hlen
    rw [List.length_eq_zero_iff.mp hlen, List.append_nil] at hes
    exact ⟨h.operations, hes, h.inputs, fun id hid => value?_eq_of_prefix h.values hid⟩

theorem gathers_enter (b : Block) (type : Attr) (l : Label) (count : Nat) :
    b.Gathers 1 ({ b with anonymousCount := count }.enter type l).2 :=
  ⟨rfl, rfl, ⟨[_], rfl, rfl⟩, List.prefix_append _ _, rfl⟩

/-! ## Results -/

theorem gathers_addValue {type : Attr} {name : Option Label} {id : Nat} (h : b.addValue type name = .ok (id, c)) :
    b.Gathers 1 c := by
  unfold addValue at h
  cases name with
  | none =>
    cases h
    exact gathers_enter b type _ _
  | some l =>
    simp only at h
    split at h
    · cases h
    · split at h
      · cases h
      · cases h
        exact gathers_enter b type l b.anonymousCount

theorem addValue_error {type : Attr} {name : Option Label} {f : BlockFault} (h : b.addValue type name = .error f) :
    ∃ l, name = some l ∧ b.Refuses l f := by
  unfold addValue at h
  cases name with
  | none => cases h
  | some l =>
    refine ⟨l, rfl, ?_⟩
    simp only at h
    split at h
    · next hkey =>
      cases h
      exact .inl ⟨by simpa using hkey, rfl⟩
    · split at h
      · next taken =>
        cases h
        exact .inr ⟨taken, rfl⟩
      · cases h

theorem addResults_gathers {items : List (Attr × Option Label)} {ids : List Nat}
    (h : b.addResults items = (.ok ids, c)) :
    b.Gathers items.length c := by
  induction items generalizing b ids with
  | nil =>
    cases h
    exact .refl _
  | cons item items ih =>
    obtain ⟨type, name⟩ := item
    simp only [addResults] at h
    split at h
    · cases h
    · next id b₁ hadd =>
      split at h
      · cases h
      · next ids' b₂ hrest =>
        cases h
        rw [List.length_cons, Nat.add_comm]
        exact (gathers_addValue hadd).trans (ih hrest)

theorem addResults_error {items : List (Attr × Option Label)} {f : BlockFault}
    (h : b.addResults items = (.error f, c)) :
    ∃ n l, (items[n]?.map (·.2)) = some (some l) ∧ c.Refuses l f ∧ b.Gathers n c := by
  induction items generalizing b with
  | nil => cases h
  | cons item items ih =>
    obtain ⟨type, name⟩ := item
    simp only [addResults] at h
    split at h
    · next f' hadd =>
      cases h
      obtain ⟨l, rfl, refused⟩ := addValue_error hadd
      exact ⟨0, l, rfl, refused, .refl _⟩
    · next id b₁ hadd =>
      split at h
      · next f' b₂ hrest =>
        cases h
        obtain ⟨n, l, hn, refused, gathers⟩ := ih hrest
        refine ⟨n + 1, l, by simpa using hn, refused, ?_⟩
        rw [Nat.add_comm]
        exact (gathers_addValue hadd).trans gathers
      · cases h

/-! ## Operations -/

theorem takeWhile_missing {os : List (Option Nat)}
    (h : ((os.takeWhile Option.isSome).filterMap id).length ≠ os.length) :
    ∃ others, os = ((os.takeWhile Option.isSome).filterMap id).map some ++ none :: others := by
  induction os with
  | nil => exact absurd rfl h
  | cons o os ih =>
    cases o with
    | none => exact ⟨os, rfl⟩
    | some x =>
      have front : ((some x :: os).takeWhile Option.isSome).filterMap id =
          x :: (os.takeWhile Option.isSome).filterMap id := rfl
      rw [front] at h ⊢
      obtain ⟨others, ho⟩ := ih fun same => h (congrArg Nat.succ same)
      exact ⟨others, congrArg (some x :: ·) ho⟩

theorem mem_uses_useBy (op : OperationRef) (v : Value) : op ∈ (v.useBy op).uses := by
  unfold Value.useBy
  by_cases old : v.uses.contains op = true
  · rw [if_pos old]
    exact List.contains_iff_mem.mp old
  · rw [if_neg old]
    exact List.mem_append_right _ (List.mem_singleton.mpr rfl)

/-- Operands in front of a missing one are used by the operation that was given up. -/
theorem mem_usesOf_abandonOperation {operands : List Nat} {id : Nat} (results : List Nat) (hid : id ∈ operands)
    (hlt : id < b.values.length) : b.nextAbandoned ∈ (b.abandonOperation results operands).usesOf id := by
  have hv := Block.value?_of_lt hlt
  have found : (b.abandonOperation results operands).value? id =
      (b.link b.nextAbandoned results operands).value? id := rfl
  rw [usesOf, found, link, value?_mapValues, value?_mapValues, hv]
  simp only [Option.map_some, Option.getD_some, List.contains_iff_mem.mpr hid, if_true]
  exact mem_uses_useBy _ _

theorem unchanged_abandonOperation {operands : List Nat}
    (h : ∀ id ∈ operands, id < b.values.length → b.nextAbandoned ∈ b.usesOf id) :
    b.Unchanged (b.abandonOperation [] operands) := by
  refine ⟨rfl, rfl, rfl, fun id hlt => ?_⟩
  have hv := Block.value?_of_lt hlt
  have found : (b.abandonOperation [] operands).value? id = (b.link b.nextAbandoned [] operands).value? id := rfl
  rw [found, link, value?_mapValues, value?_mapValues, hv]
  by_cases hid : operands.contains id = true
  · have used := h id (List.contains_iff_mem.mp hid) hlt
    rw [usesOf, hv, Option.map_some, Option.getD_some] at used
    simp only [Option.map_some, hid, if_true, List.contains_nil, Bool.false_eq_true, if_false, Value.useBy,
      List.contains_iff_mem.mpr used]
  · simp only [Option.map_some, hid, List.contains_nil, Bool.false_eq_true, if_false]

/-- How an attempt to create an operation fails, with how many of its results left behind, and when nothing is. -/
structure Fails (b : Block) (s : OperationState) (labels : List (Option Label)) (f : BlockFault) (n : Nat)
    (b' : Block) : Prop where
  operations : b'.operations = b.operations
  inputs : b'.inputs = b.inputs
  scope : ∃ es, es.length = n ∧ b'.scope = b.scope ++ es
  cause : (f = .resultNameCount s.opcode.display labels.length s.resultTypes.length ∧
      labels.length ≠ s.resultTypes.length ∧ b' = b) ∨
    (∃ l, labels[n]? = some (some l) ∧ b'.Refuses l f) ∨
    (f = .missingOperand ∧ n = s.resultTypes.length ∧ ∃ others, s.operands = s.present.map some ++ none :: others)
  uses : f = .missingOperand → ∀ id ∈ s.present, id < b.values.length → b.nextAbandoned ∈ b'.usesOf id
  unchanged : b.Unchanged b' ↔
    n = 0 ∧ (f = .missingOperand → ∀ id ∈ s.present, id < b.values.length → b.nextAbandoned ∈ b.usesOf id)

theorem Refuses.ne_missingOperand {l : Label} {f : BlockFault} (h : b.Refuses l f) : f ≠ .missingOperand := by
  rintro rfl
  rcases h with ⟨-, hf⟩ | ⟨-, hf⟩
  · cases hf
  · cases hf

theorem Fails.unchanged_iff {s : OperationState} {labels : List (Option Label)} {f : BlockFault}
    (h : b.Fails s labels f n c) (named : f ≠ .missingOperand) : b.Unchanged c ↔ n = 0 := by
  rw [h.unchanged]
  exact and_iff_left fun missing => absurd missing named

section
variable {s : OperationState} {labels : List (Option Label)} {results : List Nat} {f : BlockFault}

theorem fails_miscounted (h : labels.length ≠ s.resultTypes.length) :
    b.Fails s labels (.resultNameCount s.opcode.display labels.length s.resultTypes.length) 0 b where
  operations := rfl
  inputs := rfl
  scope := ⟨[], rfl, (List.append_nil _).symm⟩
  cause := .inl ⟨rfl, h, rfl⟩
  uses := nofun
  unchanged := ⟨fun _ => ⟨rfl, nofun⟩, fun _ => .refl b⟩

/-- The results in front of the name that is refused are left behind. -/
theorem fails_refused (h : b.addResults (s.resultTypes.zip labels) = (.error f, c)) : ∃ n, b.Fails s labels f n c := by
  obtain ⟨n, l, hn, refused, gathers⟩ := addResults_error h
  have named := refused.ne_missingOperand
  refine ⟨n, gathers.operations, gathers.inputs, gathers.scope, .inr (.inl ⟨l, ?_, refused⟩),
    fun missing => absurd missing named, ?_⟩
  · obtain ⟨x, hx, hl⟩ := Option.map_eq_some_iff.mp hn
    rw [← hl]
    exact (List.getElem?_zip_eq_some.mp hx).2
  · rw [gathers.unchanged_iff]
    exact (and_iff_left fun missing => absurd missing named).symm

/-- All results are there if an operand is missing, and only uses can come on top of them. -/
theorem fails_missing (count : labels.length = s.resultTypes.length)
    (h : b.addResults (s.resultTypes.zip labels) = (.ok results, c)) (missing : s.present.length ≠ s.operands.length) :
    b.Fails s labels .missingOperand s.resultTypes.length (c.abandonOperation results s.present) := by
  have gathers := addResults_gathers h
  rw [List.length_zip, count, Nat.min_self] at gathers
  have used : ∀ id ∈ s.present, id < b.values.length →
      b.nextAbandoned ∈ (c.abandonOperation results s.present).usesOf id := by
    intro id hid hlt
    have mark : c.nextAbandoned = b.nextAbandoned := by
      rw [nextAbandoned, gathers.operations, gathers.abandoned, nextAbandoned]
    rw [← mark]
    exact mem_usesOf_abandonOperation results hid (Nat.lt_of_lt_of_le hlt gathers.values.length_le)
  refine ⟨gathers.operations, gathers.inputs, gathers.scope, .inr (.inr ⟨rfl, rfl, takeWhile_missing missing⟩),
    fun _ => used, ?_, ?_⟩
  · intro same
    refine ⟨same.eq_zero gathers.scope, fun _ id hid hlt => ?_⟩
    rw [← same.usesOf hlt]
    exact used id hid hlt
  · rintro ⟨none, marked⟩
    rw [List.length_eq_zero_iff.mp none, List.zip_nil_left] at h
    cases h
    exact unchanged_abandonOperation (marked rfl)

end

theorem createOperation_error {s : OperationState} {names : Option (List (Option Label))} {f : BlockFault}
    (h : b.createOperation s names = (.error f, c)) :
    ∃ n, b.Fails s (names.getD (s.resultTypes.map fun _ => none)) f n c := by
  unfold createOperation at h
  dsimp only at h
  generalize names.getD (s.resultTypes.map fun _ => none) = labels at h ⊢
  by_cases hlen : (labels.length != s.resultTypes.length) = true
  · rw [if_pos hlen] at h
    cases h
    exact ⟨0, fails_miscounted (by simpa using hlen)⟩
  · rw [if_neg hlen] at h
    have count : labels.length = s.resultTypes.length := by simpa using hlen
    cases hadd : b.addResults (s.resultTypes.zip labels) with
    | mk answer b₁ =>
      rw [hadd] at h
      cases answer with
      | error f' =>
        cases h
        exact fails_refused hadd
      | ok results =>
        simp only at h
        split at h
        · cases h
        · next missing =>
          cases h
          exact ⟨_, fails_missing count hadd missing⟩

end

end Block

namespace Kind

variable {k : Kind} {b b' : Block}

theorem append_error {state : Except BuildError OperationState} {names : Option (List (Option Label))} {e : BuildError}
    (h : append b state names = (.error e, b')) : (state = .error e ∧ b' = b) ∨
      ∃ s f, state = .ok s ∧ e = .block f ∧ b.createOperation s names = (.error f, b') := by
  unfold append at h
  cases state with
  | error e' =>
    cases h
    exact .inl ⟨rfl, rfl⟩
  | ok s =>
    dsimp only at h
    split at h
    · next f c hc =>
      cases h
      exact .inr ⟨s, f, rfl, rfl, hc⟩
    · cases h

theorem buildState_operands {r : BuildRequest} {s : OperationState} (h : k.buildState b r = .ok s) :
    none ∉ s.operands := by
  simp only [buildState] at h
  split at h
  · cases h
  split at h
  · cases h
  obtain ⟨⟨⟩, -, h⟩ := bind_eq_ok.mp h
  obtain ⟨⟨tags, ids⟩, -, h⟩ := bind_eq_ok.mp h
  split at h
  · cases h
  obtain ⟨parts, -, h⟩ := bind_eq_ok.mp h
  cases h
  simp

theorem callState_results {r : CallRequest} {s : OperationState} (h : k.callState b r = .ok s) :
    s.resultTypes = [r.resultType] := by
  simp only [callState] at h
  split at h
  · cases h
  split at h
  · cases h
  obtain ⟨parts, -, h⟩ := bind_eq_ok.mp h
  obtain ⟨⟨⟩, -, h⟩ := bind_eq_ok.mp h
  obtain ⟨n, -, h⟩ := bind_eq_ok.mp h
  split at h
  · cases h
  cases h
  rfl

end Kind

/-- **A failed attempt leaves the results in front of what it failed at.** Operations and inputs are as before in any
case. Nothing at all has changed if the request was refused, if there are not as many names as results, and if
it is the name of the first result that is refused. The name of a later one leaves the results before it in
scope; a missing operand leaves all results, and uses of the operands before it. -/
theorem Block.attempts_fail (b : Block) :
    (∀ s names f b', b.createOperation s names = (.error f, b') →
      ∃ n, b.Fails s (names.getD (s.resultTypes.map fun _ => none)) f n b') ∧
    (∀ (k : Kind) r e b', k.build b r = (.error e, b') → (k.buildState b r = .error e ∧ b' = b) ∨
      ∃ s f n, k.buildState b r = .ok s ∧ e = .block f ∧ f ≠ .missingOperand ∧
        b.Fails s (r.resultNames.getD (s.resultTypes.map fun _ => none)) f n b') ∧
    (∀ (k : Kind) r e b', k.buildCall b r = (.error e, b') → (k.callState b r = .error e ∧ b' = b) ∨
      ∃ s f n, k.callState b r = .ok s ∧ e = .block f ∧ (b.Unchanged b' ↔ f ≠ .missingOperand) ∧
        b.Fails s [r.resultName] f n b') := by
  refine ⟨fun s names f b' h => createOperation_error h, fun k r e b' h => ?_, fun k r e b' h => ?_⟩
  · rcases Kind.append_error h with h | ⟨s, f, hs, he, hc⟩
    · exact .inl h
    · obtain ⟨n, fails⟩ := createOperation_error hc
      refine .inr ⟨s, f, n, hs, he, ?_, fails⟩
      intro missing
      rcases fails.cause with ⟨hf, -⟩ | ⟨l, -, refused⟩ | ⟨-, -, others, ho⟩
      · cases hf.symm.trans missing
      · exact refused.ne_missingOperand missing
      · apply Kind.buildState_operands hs
        rw [ho]
        exact List.mem_append_right _ List.mem_cons_self
  · rcases Kind.append_error h with h | ⟨s, f, hs, he, hc⟩
    · exact .inl h
    · obtain ⟨n, fails⟩ := createOperation_error hc
      have results := Kind.callState_results hs
      have labels : (r.resultName.map fun name => [some name]).getD (s.resultTypes.map fun _ => none) =
          [r.resultName] := by
        rw [results]
        cases r.resultName <;> rfl
      rw [labels] at fails
      refine .inr ⟨s, f, n, hs, he, ?_, fails⟩
      rcases fails.cause with ⟨-, count, -⟩ | ⟨l, hl, refused⟩ | ⟨missing, hn, -⟩
      · rw [results] at count
        exact absurd rfl count
      · -- the one result is the first one
        have first : n < 1 := (List.getElem?_eq_some_iff.mp hl).1
        rw [fails.unchanged_iff refused.ne_missingOperand]
        exact iff_of_true (Nat.lt_one_iff.mp first) refused.ne_missingOperand
      · rw [results] at hn
        refine iff_of_false (fun same => ?_) (not_not_intro missing)
        cases hn.symm.trans (fails.unchanged.mp same).1

def pairState : OperationState := ⟨.text "x", [], [], [.type .qubit, .type .qubit]⟩

/-- Two results of one name, a measurement without its operand, and a call whose result has the name of an
input. -/
theorem Block.attempts_fail_twice :
    (∃ f b', Block.empty.createOperation pairState (some [some "%a", some "%a"]) = (.error f, b') ∧
      Block.empty.Fails pairState [some "%a", some "%a"] f 1 b' ∧ ¬ Block.empty.Unchanged b') ∧
    (∃ e b', Kind.measurement.build prepared ⟨[], [], .attr .none, [], [], none⟩ = (.error e, b') ∧ b' = prepared) ∧
    (∃ e b', invocation.buildCall prepared ⟨.text "sub", .int 1, [some 0], none, [], .type .circuit, some "%q"⟩ =
      (.error e, b') ∧ prepared.Unchanged b') := by
  obtain ⟨creates, -, -⟩ := Block.attempts_fail .empty
  obtain ⟨-, builds, calls⟩ := Block.attempts_fail prepared
  refine ⟨?_, ?_, ?_⟩
  · have h : Block.empty.createOperation pairState (some [some "%a", some "%a"]) =
        (.error (.valueExists "%a"), (Block.empty.enter (.type .qubit) "%a").2) := by rfl
    obtain ⟨n, fails⟩ := creates _ _ _ _ h
    obtain ⟨es, hlen, hes⟩ := fails.scope
    obtain rfl : n = 1 := hlen.symm.trans (congrArg List.length hes).symm
    refine ⟨_, _, h, fails, fun same => ?_⟩
    exact absurd ((fails.unchanged_iff nofun).mp same) (by decide)
  · have h : Kind.measurement.build prepared ⟨[], [], .attr .none, [], [], none⟩ =
        (.error (.fault (.missingOperand "quantum.measure" "trgt")), prepared) := by rfl
    refine ⟨_, _, h, ?_⟩
    rcases builds _ _ _ _ h with ⟨-, same⟩ | ⟨s, f, n, -, he, -⟩
    · exact same
    · cases he
  · have h : invocation.buildCall prepared ⟨.text "sub", .int 1, [some 0], none, [], .type .circuit, some "%q"⟩ =
        (.error (.block (.valueExists "%q")), prepared) := by rfl
    refine ⟨_, _, h, ?_⟩
    rcases calls _ _ _ _ h with ⟨-, same⟩ | ⟨s, f, n, -, he, unchanged, -⟩
    · rw [same]
      exact .refl _
    · cases he
      exact unchanged.mpr nofun

end GateAsm
