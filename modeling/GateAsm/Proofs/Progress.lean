import GateAsm.Proofs.Cursor

/-!
# Reading comes to an end

Each loop of the parser is the repetition of one pass, and a pass that is made takes a token at least. So a loop
ends on every row of tokens, and with as much fuel as there are tokens left it answers what the repetition of
its pass comes to (`Parser.progress`).
-/

namespace GateAsm.Parser

/-! ## Loops -/

inductive Pass (σ α : Type)
  | ended (a : α)
  | last (a : α)
  /-- The loop goes on, and this is what becomes of its answer then. -/
  | again (f : α → α) (x : σ)

section
variable {σ α ι : Type}

/-- What a loop answers and leaves if it makes its passes without any bound on their number. -/
inductive Repeats (pass : σ → Parser (Pass σ α)) : σ → ParserState → Except ParseFailure α × ParserState → Prop
  | ended {x : σ} {s t : ParserState} {a : α} (h : Yields (pass x) s (.ended a) t) : Repeats pass x s (.ok a, t)
  | last {x : σ} {s t : ParserState} {a : α} (h : Yields (pass x) s (.last a) t) : Repeats pass x s (.ok a, t)
  | fails {x : σ} {s t : ParserState} {e : ParseFailure} (h : pass x s = (.error e, t)) : Repeats pass x s (.error e, t)
  | again {x y : σ} {s t u : ParserState} {f : α → α} {answer : Except ParseFailure α}
      (h : Yields (pass x) s (.again f y) t) (others : Repeats pass y t (answer, u)) :
      Repeats pass x s (answer.map f, u)

/-- The next pass is not made and nothing changes, or it takes a token at least. -/
def Progresses (pass : σ → Parser (Pass σ α)) : Prop :=
  ∀ x s o t, Yields (pass x) s o t → (∃ a, o = .ended a ∧ t = s) ∨ s.Passes t

def Pass.follow (loop : σ → Parser α) : Pass σ α → Parser α
  | ended a => pure a
  | last a => pure a
  | again f x => f <$> loop x

variable {pass : σ → Parser (Pass σ α)} {item : Parser ι} {n : Nat} {x : σ} {s : ParserState}

/-- A loop that unfolds into its pass with fuel for all tokens never stops for want of fuel. -/
theorem repeats_of_unfolds (loop : Nat → σ → Parser α) (hpass : Progresses pass)
    (unfolds : ∀ n x s, s.rest.length ≤ n → loop n x s = (pass x >>= Pass.follow (loop (n - 1))) s)
    (hn : s.rest.length ≤ n) : Repeats pass x s (loop n x s) := by
  -- the induction is on the tokens that are left: behind a pass that was made there are fewer of them
  induction hlen : s.rest.length using Nat.strong_induction_on generalizing n x s with
  | _ len ih =>
    rw [unfolds n x s hn]
    rcases h : pass x s with ⟨e | o, t⟩
    · rw [bind_apply, h]
      exact .fails h
    · rw [Yields.bind_eq h]
      cases o with
      | ended a => exact .ended h
      | last a => exact .last h
      | again f y =>
        obtain ⟨a, ha, -⟩ | passed := hpass x s _ t h
        · cases ha
        · have fewer := passed.fewer
          have others := ih t.rest.length (hlen ▸ fewer) (x := y) (n := n - 1) (s := t) (by omega) rfl
          rw [Pass.follow, map_apply]
          exact .again h others

/-! ## Lists with commas -/

def commaPass (item : Parser ι) (_ : Unit) : Parser (Pass Unit (List ι)) := do
  if (← optional .comma).isNone then return .ended []
  let a ← item
  return .again (a :: ·) ()

theorem progresses_commaPass (hitem : Keeps ParserState.Reaches item) : Progresses (commaPass item) := by
  intro x s o t h
  unfold commaPass at h
  obtain ⟨c, u, comma, behind⟩ := yields_bind.mp h
  rcases (yields_optional (by decide)).mp comma with ⟨y, ts, hrest, -, rfl, rfl⟩ | ⟨-, rfl, rfl⟩
  · exact .inr ((ParserState.passes_facing hrest).trans
      ((frame_reaches.bind hitem fun a => frame_reaches.pure _).yields behind))
  · obtain ⟨rfl, rfl⟩ := yields_pure.mp behind
    exact .inl ⟨[], rfl, rfl⟩

variable {loop : Nat → Parser (List ι)}

theorem repeats_commaPass (hitem : Keeps ParserState.Reaches item) (zero : loop 0 = pure [])
    (succ : ∀ n s, s.rest.length ≤ n + 1 → loop (n + 1) s = (do
      if (← optional .comma).isNone then return []
      let a ← item
      let others ← loop n
      return a :: others : Parser (List ι)) s)
    (hn : s.rest.length ≤ n) : Repeats (commaPass item) () s (loop n s) := by
  refine repeats_of_unfolds (fun n _ => loop n) (progresses_commaPass hitem) (fun n _ s hn => ?_) hn
  rw [commaPass, bind_assoc]
  cases n with
  | zero =>
    have hrest : s.rest = [] := List.eq_nil_of_length_eq_zero (Nat.le_zero.mp hn)
    rw [zero, (optional_skips (by rw [kind_ahead_zero, hrest]; decide)).bind_eq]
    rfl
  | succ n =>
    rw [succ n s hn]
    refine bind_congr_at fun c t comma => ?_
    split
    · rfl
    · rw [bind_assoc]
      refine bind_congr_at fun a u one => ?_
      rw [pure_bind, Pass.follow, map_eq_pure_bind]
      rfl

end

variable {env : ParserEnv} {kind : Kind} {s : ParserState} {n : Nat}

theorem repeats_moreResultNames (hn : s.rest.length ≤ n) :
    Repeats (commaPass (expectAs .valueName "result name")) () s (moreResultNames n s) :=
  repeats_commaPass (frame_reaches.expectAs _ _) rfl (fun _ _ _ => rfl) hn

theorem repeats_moreTypes (registry : Registry) (hn : s.rest.length ≤ n) :
    Repeats (commaPass (typeExpr registry)) () s (moreTypes registry n s) :=
  repeats_commaPass (frame_reaches.typeExpr registry) rfl (fun _ _ _ => rfl) hn

theorem repeats_literalsWithin (hn : s.rest.length ≤ n) : Repeats (commaPass literal) () s (literalsWithin n s) := by
  refine repeats_commaPass frame_reaches.literal rfl (fun n s hn => ?_) hn
  rw [literalsWithin]
  refine bind_congr_at fun c t comma => ?_
  rcases (yields_optional (by decide)).mp comma with ⟨y, ts, hrest, -, rfl, rfl⟩ | ⟨-, rfl, rfl⟩
  · rw [hrest, List.length_cons] at hn
    refine bind_both_congr (literals_fuel ?_ (Nat.le_refl _)).1 fun _ _ _ => rfl
    rw [ParserState.rest_facing]
    omega
  · rfl

def argument : Parser Argument := do
  let r ← operand
  let (accessors, references) ← accessorList
  return ⟨r, accessors, references⟩

theorem keeps_argument : Keeps ParserState.Reaches argument :=
  have hR := frame_reaches
  hR.bind hR.operand fun _ => hR.bind hR.accessorList fun _ => hR.pure _

theorem repeats_arguments (hn : s.rest.length ≤ n) : Repeats (commaPass argument) () s (arguments n s) := by
  refine repeats_commaPass keeps_argument rfl (fun n s hn => ?_) hn
  simp only [arguments, argument, bind_assoc, pure_bind]

/-! ## Instructions -/

def instructionPass (env : ParserEnv) (_ : Unit) : Parser (Pass Unit Unit) := do
  if ← atEnd then return .ended ()
  let _ ← instruction env none
  return .again id ()

theorem instructionPass_apply (env : ParserEnv) (s : ParserState) :
    instructionPass env () s = if nextKind s.rest = .endOfText then (.ok (.ended ()), s)
      else (instruction env none >>= fun _ => pure (.again id ())) s := by
  simp only [instructionPass, atEnd, bind_assoc, pure_bind]
  rw [peek_bind_apply, kind_ahead_zero]
  by_cases last : nextKind s.rest = .endOfText
  · rw [if_pos (decide_eq_true last), if_pos last]
    rfl
  · rw [if_neg (by simpa using last), if_neg last]

theorem progresses_instructionPass : Progresses (instructionPass env) := by
  intro x s o t h
  rw [Yields, instructionPass_apply] at h
  split at h
  · cases h
    exact .inl ⟨(), rfl, rfl⟩
  · exact .inr (Takes.bind takes_instruction (fun _ => frame_reaches.pure _) o t h)

theorem repeats_instructions (hn : s.rest.length ≤ n) : Repeats (instructionPass env) () s (instructions env n s) := by
  refine repeats_of_unfolds (fun n _ => instructions env n) progresses_instructionPass (fun n _ s hn => ?_) hn
  by_cases last : nextKind s.rest = .endOfText
  · have ended : Yields (instructionPass env ()) s (.ended ()) s := by rw [Yields, instructionPass_apply, if_pos last]
    rw [ended.bind_eq]
    cases n with
    | zero => rfl
    | succ n => rw [instructions_succ, if_pos last]; rfl
  · obtain ⟨n, rfl⟩ : ∃ m, n = m + 1 := by
      refine Nat.exists_eq_succ_of_ne_zero fun hzero => last ?_
      have hrest : s.rest = [] := List.eq_nil_of_length_eq_zero (Nat.le_zero.mp (hzero ▸ hn))
      rw [hrest, nextKind_nil]
    rw [instructions_succ, if_neg last, bind_apply (instructionPass env ()), instructionPass_apply, if_neg last,
      ← bind_apply, bind_assoc]
    refine bind_congr_at fun op t one => ?_
    rw [pure_bind, Pass.follow, id_map]
    rfl

/-! ## Tags -/

def tagPass (reserved : List String) (_ : Unit) : Parser (Pass Unit Unit) := do
  let t ← expectAs .word "attribute name"
  if reserved.contains t.text then fail (.reservedTag t.text) t.location
  if (Attr.lookup t.text (← get).tags).isSome then fail (.repeatedTag t.text) t.location
  let _ ← expect .equal
  let value ← literal
  modify fun s => { s with tags := Attr.put t.text value s.tags }
  if (← optional .comma).isSome then return .again id ()
  else
    let _ ← expect .closeBrace
    return .last ()

theorem progresses_tagPass (reserved : List String) : Progresses (tagPass reserved) := by
  have hR := frame_reaches
  intro x s o t h
  refine .inr (Takes.bind (takes_expectAs (by decide) _) (fun x => ?_) o t h)
  refine Frame.ite (hR.fail _ _) (hR.bind hR.get fun u => Frame.ite (hR.fail _ _) ?_)
  refine hR.bind (hR.expect _) fun _ => hR.bind hR.literal fun value =>
    hR.bind (Frame.modify fun u => hR.tags u _) fun _ => hR.bind (hR.optional _) fun _ => Frame.ite (hR.pure _) ?_
  exact hR.bind (hR.expect _) fun _ => hR.pure _

theorem repeats_tagEntries (reserved : List String) (hn : s.rest.length ≤ n) :
    Repeats (tagPass reserved) () s (tagEntries reserved n s) := by
  refine repeats_of_unfolds (fun n _ => tagEntries reserved n) (progresses_tagPass reserved) (fun n _ s hn => ?_) hn
  cases n with
  | zero =>
    rw [tagEntries, tagPass, bind_assoc]
    refine bind_congr_at fun x t named => ?_
    obtain ⟨ts, hrest, -⟩ := (yields_expectAs (by decide)).mp named
    rw [hrest] at hn
    cases hn
  | succ n =>
    rw [tagEntries, tagPass]
    simp only [bind_assoc]
    refine bind_congr_at fun x t named => ?_
    split
    · rfl
    · simp only [bind_assoc]
      refine bind_congr_at fun u v got => ?_
      split
      · rfl
      · simp only [bind_assoc]
        refine bind_congr_at fun _ t₁ _ => bind_congr_at fun value t₂ _ => bind_congr_at fun _ t₃ _ =>
          bind_congr_at fun c t₄ _ => ?_
        split
        · rw [pure_bind, Pass.follow, id_map]
          rfl
        · rw [bind_assoc]
          rfl

/-! ## Operands -/

def componentPass : Nat → Parser (Pass Nat (List (Component × Option Reference)))
  | 0 => return .ended []
  | room + 1 => do
    let c ← component
    if room = 0 then return .last [c]
    if (← optional .comma).isNone then return .last [c]
    return .again (c :: ·) room

theorem takes_component : Takes component s := by
  intro c t h
  refine ParserState.passes_iff.mpr ⟨frame_reaches.component.yields h, ?_⟩
  obtain ⟨w, p, rest, written, -, -, rfl⟩ := component_sound h
  exact written.length_lt (List.cons_ne_nil _ _)

theorem progresses_componentPass : Progresses componentPass := by
  have hR := frame_reaches
  intro room s o t h
  cases room with
  | zero =>
    obtain ⟨rfl, rfl⟩ := yields_pure.mp h
    exact .inl ⟨[], rfl, rfl⟩
  | succ room =>
    exact .inr (takes_component.bind (fun c => Frame.ite (hR.pure _) (hR.bind (hR.optional _) fun _ =>
      Frame.ite (hR.pure _) (hR.pure _))) o t h)

theorem repeats_components (room : Nat) : Repeats componentPass room s (components room s) := by
  refine repeats_of_unfolds (fun _ room => components room) progresses_componentPass (fun _ room s _ => ?_)
    (Nat.le_refl _)
  cases room with
  | zero => rfl
  | succ room =>
    rw [components, componentPass, bind_assoc]
    refine bind_congr_at fun c t one => ?_
    split
    · rfl
    · rw [bind_assoc]
      refine bind_congr_at fun o u comma => ?_
      split
      · rfl
      · rw [pure_bind, Pass.follow, map_eq_pure_bind]

def nextReference (behindComma : Bool) : Parser (Option Reference) :=
  if behindComma then some <$> operand else optionalOperand

def slotPass (kind : Kind) : List Slot → Reference → Parser (Pass (Bool × List Slot) (List SlotOperand))
  | [], r => fail (.tooManyOperands kind.name kind.operandSlots.length) r.location
  | slot :: slots, r => do
    let (accessors, references) ← slotAccessor slot
    let here : SlotOperand := ⟨slot, r, accessors, references⟩
    if (← optional .comma).isNone then return .last [here]
    return .again (here :: ·) (true, slots)

def operandPass (kind : Kind) (x : Bool × List Slot) : Parser (Pass (Bool × List Slot) (List SlotOperand)) := do
  match ← nextReference x.1 with
  | some r => slotPass kind x.2 r
  | none => return .ended []

def operandsFrom (kind : Kind) (x : Bool × List Slot) : Parser (List SlotOperand) := do
  match ← nextReference x.1 with
  | some r => slotOperands kind x.2 r
  | none => return []

theorem frame_slotPass {R : ParserState → ParserState → Prop} (hR : Frame R) (kind : Kind) (slots : List Slot)
    (r : Reference) : Keeps R (slotPass kind slots r) := by
  cases slots with
  | nil => exact hR.fail _ _
  | cons slot slots =>
    exact hR.bind (hR.slotAccessor slot) fun _ => hR.bind (hR.optional _) fun _ => Frame.ite (hR.pure _) (hR.pure _)

theorem takes_operand : Takes operand s :=
  (takes_expectAs (by decide) _).bind fun _ => frame_reaches.pure _

theorem nextReference_takes {behindComma : Bool} {o : Option Reference} {t : ParserState}
    (h : Yields (nextReference behindComma) s o t) : (o = none ∧ t = s) ∨ s.Passes t := by
  cases behindComma with
  | true =>
    obtain ⟨r, read, -⟩ := yields_map.mp h
    exact .inr (takes_operand r t read)
  | false =>
    rcases yields_optionalOperand.mp h with ⟨x, ts, hrest, -, -, rfl⟩ | ⟨-, rfl, rfl⟩
    · exact .inr (ParserState.passes_facing hrest)
    · exact .inl ⟨rfl, rfl⟩

theorem progresses_operandPass (kind : Kind) : Progresses (operandPass kind) := by
  intro x s o t h
  unfold operandPass at h
  obtain ⟨found, u, referred, behind⟩ := yields_bind.mp h
  cases found with
  | none =>
    obtain ⟨rfl, rfl⟩ := yields_pure.mp behind
    obtain ⟨-, rfl⟩ | passed := nextReference_takes referred
    · exact .inl ⟨[], rfl, rfl⟩
    · exact .inr passed
  | some r =>
    obtain ⟨hnone, -⟩ | passed := nextReference_takes referred
    · cases hnone
    · exact .inr (passed.trans ((frame_slotPass frame_reaches kind x.2 r).yields behind))

theorem slotOperands_eq (kind : Kind) (slots : List Slot) (r : Reference) (s : ParserState) :
    slotOperands kind slots r s = (slotPass kind slots r >>= Pass.follow (operandsFrom kind)) s := by
  -- the comma behind the operand decides whether another pass is made
  cases slots with
  | nil => rfl
  | cons slot slots =>
    rw [slotOperands, slotPass, bind_assoc]
    refine bind_congr_at fun accessors t read => ?_
    rw [bind_assoc]
    refine bind_congr_at fun o u comma => ?_
    split
    · rfl
    · rw [pure_bind, Pass.follow, operandsFrom, nextReference, if_pos rfl]
      simp only [map_eq_pure_bind, bind_assoc, pure_bind]

theorem repeats_operandList (kind : Kind) :
    Repeats (operandPass kind) (false, kind.operandSlots) s (operandList kind s) := by
  refine repeats_of_unfolds (fun _ => operandsFrom kind) (progresses_operandPass kind) (fun _ x s _ => ?_)
    (Nat.le_refl _)
  rw [operandsFrom, operandPass, bind_assoc]
  refine bind_congr_at fun found t referred => ?_
  cases found with
  | none => rfl
  | some r => exact slotOperands_eq kind x.2 r t

/-! ## All of it -/

/-- The loops of the parser: the pass of each, what it starts with, and the fuelled recursion that it is. -/
inductive Loop (env : ParserEnv) : {σ α : Type} → (σ → Parser (Pass σ α)) → σ → (Nat → Parser α) → Prop
  | instructions : Loop env (instructionPass env) () (instructions env)
  | resultNames : Loop env (commaPass (expectAs .valueName "result name")) () moreResultNames
  | operands (kind : Kind) : Loop env (operandPass kind) (false, kind.operandSlots) fun _ => operandList kind
  | components : Loop env componentPass Accessors.maxSize fun _ => components Accessors.maxSize
  | arguments : Loop env (commaPass argument) () arguments
  | tags (reserved : List String) : Loop env (tagPass reserved) () (tagEntries reserved)
  | literals : Loop env (commaPass literal) () literalsWithin
  | types : Loop env (commaPass (typeExpr env.registry)) () (moreTypes env.registry)

theorem Loop.progresses {σ α : Type} {pass : σ → Parser (Pass σ α)} {x : σ} {loop : Nat → Parser α}
    (h : Loop env pass x loop) : Progresses pass := by
  cases h with
  | instructions => exact progresses_instructionPass
  | resultNames => exact progresses_commaPass (frame_reaches.expectAs _ _)
  | operands kind => exact progresses_operandPass kind
  | components => exact progresses_componentPass
  | arguments => exact progresses_commaPass keeps_argument
  | tags reserved => exact progresses_tagPass reserved
  | literals => exact progresses_commaPass frame_reaches.literal
  | types => exact progresses_commaPass (frame_reaches.typeExpr _)

theorem Loop.repeats {σ α : Type} {pass : σ → Parser (Pass σ α)} {x : σ} {loop : Nat → Parser α}
    (h : Loop env pass x loop) (hn : s.rest.length ≤ n) : Repeats pass x s (loop n s) := by
  cases h with
  | instructions => exact repeats_instructions hn
  | resultNames => exact repeats_moreResultNames hn
  | operands kind => exact repeats_operandList kind
  | components => exact repeats_components Accessors.maxSize
  | arguments => exact repeats_arguments hn
  | tags reserved => exact repeats_tagEntries reserved hn
  | literals => exact repeats_literalsWithin hn
  | types => exact repeats_moreTypes env.registry hn

/-- **Reading goes forward and comes to an end.** The cursor starts at the first token of a stream, and the token
at its index is the current one. Whatever a routine comes to, it leaves the cursor where it is or closer to the end
token, and not behind that. A routine for what may be missing changes nothing if it is missing, and takes a token if
it is there. A type, a literal and an instruction take a token at least, and so does each pass that a loop makes.
Hence neither the nesting of types and literals nor a loop depends on its fuel, as long as that covers the tokens
that are left: the loop is the unbounded repetition of its pass. -/
theorem progress (env : ParserEnv) :
    (∀ all c b, (ParserState.start all c b).At all 0) ∧
    (∀ s all i, ParserState.At s all i → all.toList[i]? = some (s.ahead 0)) ∧
    (∀ {α : Type} {p : Parser α}, Routine env p → ∀ s : ParserState, s.Reaches (p s).2) ∧
    (∀ {α : Type} {p : Parser α} {absent : α} {starts : Token → Prop}, Optional env p absent starts → ∀ s,
      (¬ starts (s.ahead 0) → p s = (.ok absent, s)) ∧ (starts (s.ahead 0) → s.rest ≠ [] → Takes p s)) ∧
    (∀ s, Takes (typeExpr env.registry) s ∧ Takes literal s ∧ ∀ expected, Takes (instruction env expected) s) ∧
    (∀ s n, s.rest.length ≤ n →
      typeWithin env.registry n s = typeExpr env.registry s ∧ literalWithin n s = literal s) ∧
    ∀ {σ α : Type} {pass : σ → Parser (Pass σ α)} {x : σ} {loop : Nat → Parser α}, Loop env pass x loop →
      Progresses pass ∧ ∀ s n, s.rest.length ≤ n → Repeats pass x s (loop n s) := by
  refine ⟨ParserState.start_at, fun s all i h => h.current, fun h => h.forward, fun h s => ⟨h.skips, h.takes⟩,
    fun s => ?_, fun s n hn => ?_, fun h => ?_⟩
  · exact ⟨takes_typeExpr env.registry, takes_literal, fun expected => takes_instruction⟩
  · exact ⟨typeWithin_fuel hn (Nat.le_refl _), (literals_fuel hn (Nat.le_refl _)).1⟩
  · exact ⟨h.progresses, fun s n hn => h.repeats hn⟩

def itemsLeft : ParserState :=
  .start ⟨[⟨.comma, ",", .start⟩, ⟨.word, "true", .start⟩], .start⟩ .default .empty

/-- No accessor is there, and the cursor stays; the comma is taken, and the items are read up to the end token. -/
theorem progress_itemsLeft :
    accessorList itemsLeft = (.ok (.empty, []), itemsLeft) ∧ Takes (optional .comma) itemsLeft ∧
      Repeats (commaPass literal) () itemsLeft (.ok [.bool true], itemsLeft.facing []) := by
  obtain ⟨-, -, -, missing, -, -, loops⟩ := progress ⟨.standard, false⟩
  have items : literalsWithin 2 itemsLeft = (.ok [.bool true], itemsLeft.facing []) := rfl
  refine ⟨(missing .accessors itemsLeft).1 (by decide), (missing (.token .comma) itemsLeft).2 rfl
    (List.cons_ne_nil _ _), ?_⟩
  rw [← items]
  exact (loops .literals).2 itemsLeft 2 (Nat.le_refl _)

end GateAsm.Parser
