import GateAsm.Proofs.Config.Written

/-!
# Documents that are no configuration

A document that is no configuration is refused with a failure of configurations, with two exceptions: unknown keys of
sorts that have no order among each other are not told, since they are sorted first; and an integer with too many
digits is not shown, where it is to be a name or stands in a message (`Config.ofDocument_outcome`).
-/

namespace GateAsm

/-! ## Keys in order -/

namespace Document

variable {keys : List Document}

/-- Two of the keys are of different sorts, so that there is no order among them. -/
def Mixed (keys : List Document) : Prop := ∃ k ∈ keys, ∃ k' ∈ keys, k.sortName ≠ k'.sortName

def grouped (keys : List Document) : List Document :=
  keys.filter (fun d => d.sortName = "") ++
    keys.filter (fun d => !decide (d.sortName = "") && !decide (d.sortName = "str")) ++
    keys.filter fun d => d.sortName = "str"

theorem sortKeys_eq (keys : List Document) :
    sortKeys keys = match unordered? (grouped keys) with
      | some pair => .error pair
      | none => .ok (keys.mergeSort fun a b => !b.before a) := rfl

theorem mem_grouped {k : Document} : k ∈ grouped keys ↔ k ∈ keys := by
  simp only [grouped, List.mem_append, List.mem_filter, decide_eq_true_eq, Bool.and_eq_true, Bool.not_eq_true',
    decide_eq_false_iff_not]
  tauto

theorem unordered?_eq_none_iff : unordered? keys = none ↔ ¬ Mixed keys := by
  have mixed : ¬ Mixed keys ↔ ∀ k ∈ keys, ∀ k' ∈ keys, k.sortName = k'.sortName := by simp [Mixed]
  rw [mixed]
  clear mixed
  induction keys with
  | nil => simp [unordered?]
  | cons a keys ih =>
    cases keys with
    | nil => simp [unordered?]
    | cons b keys =>
      rw [unordered?]
      constructor
      · intro h
        split at h
        · next same =>
          have first : ∀ k ∈ a :: b :: keys, k.sortName = b.sortName :=
            List.forall_mem_cons.mpr ⟨same, fun k hk => ih.mp h k hk b List.mem_cons_self⟩
          exact fun k hk k' hk' => (first k hk).trans (first k' hk').symm
        · cases h
      · intro all
        rw [if_pos (all a List.mem_cons_self b (List.mem_cons_of_mem _ List.mem_cons_self))]
        exact ih.mpr fun k hk k' hk' => all k (List.mem_cons_of_mem _ hk) k' (List.mem_cons_of_mem _ hk')

theorem mixed_grouped : Mixed (grouped keys) ↔ Mixed keys := by
  simp only [Mixed, mem_grouped]

theorem sortKeys_outcome (keys : List Document) :
    (Mixed keys ∧ ∃ pair, sortKeys keys = .error pair) ∨
      ¬ Mixed keys ∧ ∃ sorted, sortKeys keys = .ok sorted ∧ sorted.Perm keys := by
  rw [sortKeys_eq]
  -- keys are compared in groups, which does not change whether two are of different sorts
  by_cases hm : Mixed keys
  · cases hu : unordered? (grouped keys) with
    | none => exact absurd (mixed_grouped.mpr hm) (unordered?_eq_none_iff.mp hu)
    | some pair => exact .inl ⟨hm, pair, rfl⟩
  · rw [unordered?_eq_none_iff.mpr (mt mixed_grouped.mp hm)]
    exact .inr ⟨hm, _, rfl, List.mergeSort_perm _ _⟩

theorem isShowable_list : (list keys).isShowable = true ↔ ∀ k ∈ keys, k.isShowable = true := by
  rw [isShowable]
  induction keys with
  | nil => simp [areShowable]
  | cons k keys ih => rw [areShowable, Bool.and_eq_true, ih, List.forall_mem_cons]

end Document

/-! ## What is refused -/

namespace Config

variable {α β : Type} {d name : Document} {names : List String} {entries ks : List (Document × Document)}
  {P : ConfigFault → Prop}

def Told (f : ConfigFault) : Prop := ∃ m, toFailure f = .other .configuration (some m)

/-- The parts of a document that can have certain keys only, with these keys and with the entries that they have. -/
inductive PartOf (d : Document) : List String → List (Document × Document) → Prop
  | whole {es : List (Document × Document)} (h : d = .mapping es) : PartOf d ["parser", "ops"] es
  | options {es os : List (Document × Document)} (h : d = .mapping es)
    (ho : Document.lookup "parser" es = some (.mapping os)) : PartOf d [angleOption] os
  | kind {es ks : List (Document × Document)} {items : List Document} (h : d = .mapping es)
    (hi : Document.lookup "ops" es = some (.list items)) (hk : .mapping ks ∈ items) :
    PartOf d ["name", "slots", "rotation", "summary"] ks
  | slot {ks ss : List (Document × Document)} {items : List Document}
    (h : PartOf d ["name", "slots", "rotation", "summary"] ks) (hi : Document.lookup "slots" ks = some (.list items))
    (hs : .mapping ss ∈ items) : PartOf d ["name", "register", "optional"] ss

/-- What of a part is to be a text or stands in a message: its unknown keys, its name and its summary. -/
def Asked (names : List String) (entries : List (Document × Document)) (d : Document) : Prop :=
  d ∈ Document.otherKeys names entries ∨
    ∃ key ∈ names, key ∈ ["name", "summary"] ∧ Document.lookup key entries = some d

/-- The faults of a part that are not told. -/
inductive Untold (names : List String) (entries : List (Document × Document)) : ConfigFault → Prop
  | unordered {a b : String} (h : Document.Mixed (Document.otherKeys names entries)) :
      Untold names entries (.unorderedKeys a b)
  | long {n : Document} (h : Asked names entries n) (hn : n.isShowable = false) : Untold names entries .integerTooLong
  | longToTell {n : Document} (h : Asked names entries n) (hn : n.isShowable = false) :
      Untold names entries .integerTooLongToTell

/-- A fault of the document is told, or it is one of those that are not, of one of its parts. -/
def Refused (d : Document) (f : ConfigFault) : Prop :=
  Told f ∨ ∃ names entries, PartOf d names entries ∧ Untold names entries f

def FailsWith (P : ConfigFault → Prop) (x : Except ConfigFault α) : Prop := ∀ f, x = .error f → P f

theorem failsWith_ok (a : α) : FailsWith P (.ok a : Except ConfigFault α) := nofun

theorem failsWith_error {f : ConfigFault} (h : P f) : FailsWith P (.error f : Except ConfigFault α) := by
  rintro _ ⟨⟩
  exact h

theorem failsWith_bind {x : Except ConfigFault α} {g : α → Except ConfigFault β} (hx : FailsWith P x)
    (hg : ∀ a, x = .ok a → FailsWith P (g a)) : FailsWith P (x >>= g) := by
  cases x with
  | error f => exact failsWith_error (hx f rfl)
  | ok a => exact hg a rfl

theorem failsWith_mapM {g : α → Except ConfigFault β} {xs : List α} (h : ∀ x ∈ xs, FailsWith P (g x)) :
    FailsWith P (xs.mapM g) := by
  induction xs with
  | nil => exact failsWith_ok []
  | cons x xs ih =>
    obtain ⟨first, others⟩ := List.forall_mem_cons.mp h
    rw [List.mapM_cons]
    exact failsWith_bind first fun y _ => failsWith_bind (ih others) fun ys _ => failsWith_ok (y :: ys)

/-! ## Steps -/

theorem refused_about {fault : String → ConfigFault} (h : PartOf d names entries) (ha : Asked names entries name)
    (refused : ∀ s, Refused d (fault s)) : Refused d (about name fault) := by
  unfold about
  split
  · exact refused _
  · next hn => exact .inr ⟨names, entries, h, .longToTell ha (Bool.eq_false_iff.mpr hn)⟩

theorem failsWith_textOf (h : PartOf d names entries) (ha : Asked names entries name) :
    FailsWith (Refused d) (textOf name) := by
  unfold textOf
  split
  · exact failsWith_ok _
  · next hn => exact failsWith_error (.inr ⟨names, entries, h, .long ha (Bool.eq_false_iff.mpr hn)⟩)

theorem refused_unknownKeys {fault : String → ConfigFault} (h : PartOf d names entries) (told : ∀ s, Told (fault s)) :
    Refused d (unknownKeys (Document.otherKeys names entries) fault) := by
  unfold unknownKeys
  rcases Document.sortKeys_outcome (Document.otherKeys names entries) with ⟨mixed, pair, hp⟩ | ⟨-, sorted, hs, perm⟩
  · rw [hp]
    exact .inr ⟨names, entries, h, .unordered mixed⟩
  · rw [hs]
    dsimp only [about]
    split
    · exact .inl (told _)
    · next hn =>
      rw [Document.isShowable_list] at hn
      push Not at hn
      obtain ⟨k, hk, long⟩ := hn
      exact .inr ⟨names, entries, h, .longToTell (.inl (perm.mem_iff.mp hk)) (Bool.eq_false_iff.mpr long)⟩

theorem failsWith_known {fault : List Document → ConfigFault} (refused : P (fault (Document.otherKeys names entries))) :
    FailsWith P (known names fault entries) := by
  unfold known
  split
  · exact failsWith_ok ()
  · next he => exact failsWith_error refused

theorem failsWith_flagOf {key : String} (h : PartOf d names ks) (ha : Asked names ks name) :
    FailsWith (Refused d) (flagOf name key entries) := by
  unfold flagOf
  split
  · exact failsWith_ok false
  · exact failsWith_ok _
  · exact failsWith_error (refused_about h ha fun _ => .inl ⟨_, rfl⟩)

theorem failsWith_sectionOf {f : ConfigFault} (told : Told f) (section? : Option Document) :
    FailsWith (Refused d) (sectionOf f section?) := by
  unfold sectionOf
  split
  · exact failsWith_ok []
  · exact failsWith_ok []
  · exact failsWith_ok _
  · exact failsWith_error (.inl told)

theorem failsWith_listOf {f : ConfigFault} (refused : P f) (list? : Option Document) :
    FailsWith P (listOf f list?) := by
  unfold listOf
  split
  · exact failsWith_ok []
  · exact failsWith_ok []
  · exact failsWith_ok _
  · exact failsWith_error refused

theorem failsWith_named {f : ConfigFault} (refused : P f) (d : Document) : FailsWith P (named f d) := by
  unfold named
  split
  · split
    · exact failsWith_ok _
    · exact failsWith_error refused
  · exact failsWith_error refused

theorem named_eq_ok {f : ConfigFault} (h : named f d = .ok (name, entries)) :
    d = .mapping entries ∧ Document.lookup "name" entries = some name := by
  unfold named at h
  split at h
  · split at h
    · next hn =>
      cases h
      exact ⟨rfl, hn⟩
    · cases h
  · cases h

theorem sectionOf_eq_ok {f : ConfigFault} {section? : Option Document} (h : sectionOf f section? = .ok entries) :
    entries = [] ∨ section? = some (.mapping entries) := by
  unfold sectionOf at h
  split at h
  · cases h; exact .inl rfl
  · cases h; exact .inl rfl
  · cases h; exact .inr rfl
  · cases h

theorem listOf_eq_ok {f : ConfigFault} {list? : Option Document} {items : List Document}
    (h : listOf f list? = .ok items) :
    items = [] ∨ list? = some (.list items) := by
  unfold listOf at h
  split at h
  · cases h; exact .inl rfl
  · cases h; exact .inl rfl
  · cases h; exact .inr rfl
  · cases h

/-! ## Parts -/

theorem asked_name (hn : Document.lookup "name" ks = some name) :
    Asked ["name", "slots", "rotation", "summary"] ks name := .inr ⟨"name", by decide, by decide, hn⟩

theorem failsWith_slotOf (h : PartOf d ["name", "slots", "rotation", "summary"] ks)
    (hn : Document.lookup "name" ks = some name) {s : Document}
    (hs : ∀ ss, s = .mapping ss → PartOf d ["name", "register", "optional"] ss) :
    FailsWith (Refused d) (slotOf name s) := by
  have asked := asked_name hn
  unfold slotOf
  refine failsWith_bind (failsWith_named (refused_about h asked fun _ => .inl ⟨_, rfl⟩) s) ?_
  rintro ⟨slotName, ss⟩ ok
  obtain ⟨hss, hname⟩ := named_eq_ok ok
  have slot := hs ss hss
  refine failsWith_bind (failsWith_known (refused_about h asked fun _ => refused_unknownKeys slot fun _ => ⟨_, rfl⟩))
    fun _ _ => ?_
  refine failsWith_bind (failsWith_textOf slot (.inr ⟨"name", by decide, by decide, hname⟩)) fun _ _ => ?_
  refine failsWith_bind (failsWith_flagOf h asked) fun _ _ => ?_
  exact failsWith_bind (failsWith_flagOf h asked) fun _ _ => failsWith_ok _

theorem failsWith_kindOf {k : Document}
    (hk : ∀ ks, k = .mapping ks → PartOf d ["name", "slots", "rotation", "summary"] ks) :
    FailsWith (Refused d) (kindOf k) := by
  unfold kindOf
  refine failsWith_bind (failsWith_named (.inl ⟨_, rfl⟩) k) ?_
  rintro ⟨name, ks⟩ ok
  obtain ⟨hks, hname⟩ := named_eq_ok ok
  have part := hk ks hks
  have asked := asked_name hname
  refine failsWith_bind (failsWith_known (refused_about part asked fun _ => refused_unknownKeys part fun _ => ⟨_, rfl⟩))
    fun _ _ => ?_
  refine failsWith_bind (failsWith_listOf (refused_about part asked fun _ => .inl ⟨_, rfl⟩) _) fun slots hslots => ?_
  refine failsWith_bind (failsWith_mapM fun s hs => failsWith_slotOf part hname fun ss hss => ?_) fun _ _ => ?_
  · rcases listOf_eq_ok hslots with rfl | hl
    · cases hs
    · exact .slot part hl (hss ▸ hs)
  refine failsWith_bind (failsWith_textOf part asked) fun _ _ => ?_
  refine failsWith_bind (failsWith_flagOf part asked) fun _ _ => ?_
  refine failsWith_bind ?_ fun _ _ => ?_
  · cases hsummary : Document.lookup "summary" ks with
    | none => exact failsWith_ok _
    | some summary => exact failsWith_textOf part (.inr ⟨"summary", by decide, by decide, hsummary⟩)
  · intro f hf
    unfold Kind.make at hf
    split at hf
    · cases hf
      exact .inl ⟨_, rfl⟩
    · cases hf

theorem failsWith_optionsOf (hk : PartOf d [angleOption] entries) : FailsWith (Refused d) (optionsOf entries) := by
  unfold optionsOf
  refine failsWith_bind (failsWith_known (refused_unknownKeys hk fun _ => ⟨_, rfl⟩)) fun _ _ => ?_
  split
  · exact failsWith_error (.inl ⟨_, rfl⟩)
  · split
    · exact failsWith_ok _
    · exact failsWith_ok false

theorem failsWith_ofDocument (d : Document) : FailsWith (Refused d) (ofDocument d) := by
  unfold ofDocument
  split
  · exact failsWith_ok _
  · next entries =>
    refine failsWith_bind (failsWith_known (refused_unknownKeys (.whole rfl) fun _ => ⟨_, rfl⟩)) fun _ _ => ?_
    refine failsWith_bind (failsWith_sectionOf ⟨_, rfl⟩ _) fun options hoptions => ?_
    refine failsWith_bind ?_ fun _ _ => ?_
    · rcases sectionOf_eq_ok hoptions with rfl | ho
      · exact failsWith_ok false
      · exact failsWith_optionsOf (.options rfl ho)
    refine failsWith_bind (failsWith_listOf (.inl ⟨_, rfl⟩) _) fun items hitems => ?_
    refine failsWith_bind (failsWith_mapM fun k hk => failsWith_kindOf fun ks hks => ?_) fun _ _ => ?_
    · rcases listOf_eq_ok hitems with rfl | hl
      · cases hk
      · exact .kind rfl hl (hks ▸ hk)
    · split
      · exact failsWith_ok _
      · exact failsWith_error (.inl ⟨_, rfl⟩)
  · exact failsWith_error (.inl ⟨_, rfl⟩)

/-! ## Outcomes -/

theorem Untold.not_told {f : ConfigFault} (h : Untold names entries f) (m : Option String) :
    toFailure f ≠ .other .configuration m := by
  cases h with
  | unordered _ => exact nofun
  | long _ _ => exact nofun
  | longToTell _ _ => exact nofun

theorem ofDocument_of_mixed (h : Document.Mixed (Document.otherKeys ["parser", "ops"] entries)) :
    ∃ a b, ofDocument (.mapping entries) = .error (.unorderedKeys a b) := by
  rcases Document.sortKeys_outcome (Document.otherKeys ["parser", "ops"] entries) with ⟨-, pair, hp⟩ | ⟨hnot, -⟩
  -- unknown keys are sorted before the message is made
  · have refused : known ["parser", "ops"] (unknownKeys · .unknownSections) entries =
        .error (.unorderedKeys pair.2.kindName pair.1.kindName) := by
      unfold known
      split
      · next none =>
        obtain ⟨k, hk, -⟩ := h
        rw [none] at hk
        cases hk
      · dsimp only [unknownKeys]
        rw [hp]
    exact ⟨_, _, by rw [ofDocument, refused, error_bind]⟩
  · exact absurd h hnot

/-- **What becomes of a document.** It is read as a configuration; or it is refused with a failure of configurations and
a message; or a part of it has unknown keys of different sorts, or a name, a summary or unknown keys with an integer of
too many digits, and the failure is none of configurations. The last does happen: unknown sections of different sorts
always end so. -/
theorem ofDocument_outcome (d : Document) :
    ((∃ c, ofDocument d = .ok c) ∨
      (∃ f m, ofDocument d = .error f ∧ toFailure f = .other .configuration (some m)) ∨
      ∃ f names entries, ofDocument d = .error f ∧ (∀ m, toFailure f ≠ .other .configuration m) ∧
        PartOf d names entries ∧ Untold names entries f) ∧
    ∀ entries, d = .mapping entries → Document.Mixed (Document.otherKeys ["parser", "ops"] entries) →
      ∃ a b, ofDocument d = .error (.unorderedKeys a b) := by
  refine ⟨?_, fun entries hd mixed => hd ▸ ofDocument_of_mixed mixed⟩
  cases hf : ofDocument d with
  | ok c => exact .inl ⟨c, rfl⟩
  | error f =>
    rcases failsWith_ofDocument d f hf with ⟨m, told⟩ | ⟨names, entries, part, untold⟩
    · exact .inr (.inl ⟨f, m, rfl, told⟩)
    · exact .inr (.inr ⟨f, names, entries, rfl, untold.not_told, part, untold⟩)

def twoSorts : Document := .mapping [(.text "b", .int 1), (.int 2, .text "x")]

theorem ofDocument_outcome_twoSorts :
    Document.Mixed [.text "b", .int 2] ∧ ofDocument twoSorts = .error (.unorderedKeys "str" "int") ∧
      ¬ ∃ c, ofDocument twoSorts = .ok c := by
  have mixed : Document.Mixed [.text "b", .int 2] :=
    ⟨.text "b", List.mem_cons_self, .int 2, List.mem_cons_of_mem _ List.mem_cons_self, by decide⟩
  obtain ⟨a, b, refused⟩ := (ofDocument_outcome twoSorts).2 _ rfl mixed
  have same : ofDocument twoSorts = .error (.unorderedKeys "str" "int") := by decide +kernel
  exact ⟨mixed, same, fun ⟨c, hc⟩ => by rw [hc] at refused; cases refused⟩

end Config

end GateAsm
