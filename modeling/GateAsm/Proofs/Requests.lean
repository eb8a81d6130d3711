import GateAsm.Proofs.Rollback
import GateAsm.Proofs.TypeHistory
import GateAsm.Proofs.TypeKeys
import GateAsm.Wire.Bytes

/-!
# Interning in any history

Types are asked for directly, through the getters of their classes, and by reading texts and serialized values. Each
of these asks a context for one type after the other (`TypeContext.Asked`), so what one request keeps is kept in all
of a history: an entry for each key, in the order of the first requests, and the base of a gate in front of the gate
(`TypeContext.Coherent`).
-/

namespace GateAsm

/-! ## One request -/

/-- A context as requests leave it. -/
structure TypeContext.Coherent (c : TypeContext) : Prop where
  formed : ∀ s ∈ c.stored, s.Formed
  apart : c.stored.Pairwise fun a b => a.same b = false
  based : ∀ (i : Nat) (s : StoredType) (b : GateBase) (n : Option Nat), c.stored[i]? = some s →
    s.type = .controlled b n → ∃ j < i, c.stored[j]? = some ⟨b.ty, s.surplus⟩

/-- The context answers a request for a key with a type, and is left as `d`: an entry with the key is given as it is,
and without one the context gets the type as one more entry. -/
structure TypeContext.Gives (c : TypeContext) (k : TyClass) (key : List Surplus) (t : StoredType) (d : TypeContext) :
    Prop where
  found : ∀ e ∈ c.stored, e.Keyed k key → t = e ∧ d = c
  added : (∀ e ∈ c.stored, ¬ e.Keyed k key) → d = { c with stored := c.stored ++ [t] }

/-- The context is left as `d` after some requests. -/
inductive TypeContext.Run (c : TypeContext) : TypeContext → Prop
  | nil : Run c c
  | request {d e : TypeContext} {k : TyClass} {key : List Surplus} {t : StoredType} :
    Run c d → d.Gives k key t e → Run c e

namespace TypeContext

variable {c d : TypeContext} {s : StoredType}

theorem coherent_empty (name : String) : (TypeContext.empty name).Coherent :=
  ⟨nofun, .nil, fun i s b n h => by simp [empty] at h⟩

theorem coherent_default : TypeContext.default.Coherent := by
  have plain : ∀ s ∈ TypeContext.default.stored, s.type.tyClass ≠ .controlled := by decide
  refine ⟨fun s hs => ?_, lawful_default.apart, fun i s b n hi hb => ?_⟩
  · obtain ⟨surplus, made⟩ := lawful_default.held s hs
    exact ⟨fun _ => made, fun _ => surplus⟩
  · exact absurd (congrArg Ty.tyClass hb) (plain s (List.mem_of_getElem? hi))

theorem Coherent.index_eq (hc : c.Coherent) {i j : Nat} {a b : StoredType} (hi : c.stored[i]? = some a)
    (hj : c.stored[j]? = some b) (h : a.same b = true) : i = j := by
  obtain ⟨inside, rfl⟩ := List.getElem?_eq_some_iff.mp hi
  obtain ⟨inside', rfl⟩ := List.getElem?_eq_some_iff.mp hj
  have apart := List.pairwise_iff_getElem.mp hc.apart
  rcases Nat.lt_trichotomy i j with lt | eq | lt
  · rw [apart i j inside inside' lt] at h
    cases h
  · exact eq
  · have h' := StoredType.same_symm h
    rw [apart j i inside' inside lt] at h'
    cases h'

theorem Coherent.store_of_same (hc : c.Coherent) {e : StoredType} (he : e ∈ c.stored) (h : e.same s = true) :
    c.store s = (e, c) := by
  cases hf : c.find? s with
  | none => exact absurd h (List.find?_eq_none.mp hf e he)
  | some kept =>
    have same : kept.same s = true := by simpa using List.find?_some hf
    obtain ⟨i, hi⟩ := List.mem_iff_getElem?.mp he
    obtain ⟨j, hj⟩ := List.mem_iff_getElem?.mp (List.mem_of_find?_eq_some hf)
    obtain rfl := hc.index_eq hj hi (StoredType.same_trans same (StoredType.same_symm h))
    obtain rfl : kept = e := Option.some.inj (hj.symm.trans hi)
    exact store_of_find? hf

theorem Coherent.store (hc : c.Coherent) (hs : c.Takes s) : (c.store s).2.Coherent := by
  cases hf : c.find? s with
  | some kept => rw [store_of_find? hf]; exact hc
  | none =>
    rw [store_of_find?_none hf]
    refine ⟨fun e he => ?_, ?_, fun i e b n hi hb => ?_⟩
    · rcases List.mem_append.mp he with he | he
      · exact hc.formed e he
      · obtain rfl := List.mem_singleton.mp he
        exact hs.toFormed
    · refine List.pairwise_append.mpr ⟨hc.apart, List.pairwise_singleton _ _, fun a ha b hb => ?_⟩
      obtain rfl := List.mem_singleton.mp hb
      simpa using List.find?_eq_none.mp hf a ha
    · have front : ∀ {j : Nat} {e : StoredType}, c.stored[j]? = some e → (c.stored ++ [s])[j]? = some e := fun h => by
        rw [List.getElem?_append_left (List.getElem?_eq_some_iff.mp h).1]
        exact h
      rcases Nat.lt_or_ge i c.stored.length with lt | ge
      · rw [List.getElem?_append_left lt] at hi
        obtain ⟨j, hj, hbase⟩ := hc.based i e b n hi hb
        exact ⟨j, hj, front hbase⟩
      · -- the new entry is the last one, and its base is an old one
        rw [List.getElem?_append_right ge] at hi
        obtain ⟨-, rfl⟩ : i - c.stored.length = 0 ∧ s = e := by
          cases hk : i - c.stored.length with
          | zero => rw [hk] at hi; exact ⟨rfl, Option.some.inj hi⟩
          | succ k => rw [hk] at hi; cases hi
        obtain ⟨j, hj⟩ := List.mem_iff_getElem?.mp (hs.base b n hb)
        exact ⟨j, Nat.lt_of_lt_of_le (List.getElem?_eq_some_iff.mp hj).1 ge, front hj⟩

theorem Coherent.gives (hc : c.Coherent) {k : TyClass} {ps : List TypeParam} (h : k.Makes ps s) (hs : c.Takes s) :
    c.Gives k (ps.map TypeParam.key) (c.store s).1 (c.store s).2 := by
  constructor
  · intro e he keyed
    rw [hc.store_of_same he ((h.keyed_iff hs.toFormed (hc.formed e he)).mp keyed)]
    exact ⟨rfl, rfl⟩
  · intro none
    have : c.find? s = Option.none := List.find?_eq_none.mpr fun e he same =>
      none e he ((h.keyed_iff hs.toFormed (hc.formed e he)).mpr same)
    rw [store_of_find?_none this]

theorem Coherent.gives_self (hc : c.Coherent) (hs : c.Takes s) :
    c.Gives s.type.tyClass s.key (c.store s).1 (c.store s).2 := by
  constructor
  · intro e he keyed
    rw [hc.store_of_same he ((StoredType.same_iff_keyed (hc.formed e he) hs.toFormed).mpr keyed)]
    exact ⟨rfl, rfl⟩
  · intro none
    have : c.find? s = Option.none := List.find?_eq_none.mpr fun e he same =>
      none e he ((StoredType.same_iff_keyed (hc.formed e he) hs.toFormed).mp same)
    rw [store_of_find?_none this]

/-- A context stays coherent whatever it is asked for, and each single request is answered under its key. -/
theorem Asked.run (h : c.Asked d) (hc : c.Coherent) : d.Coherent ∧ c.Run d := by
  induction h with
  | refl => exact ⟨hc, .nil⟩
  | store _ hs ih =>
    obtain ⟨coherent, run⟩ := ih
    exact ⟨coherent.store hs, run.request (coherent.gives_self hs)⟩

theorem Gives.stored {k : TyClass} {key : List Surplus} (h : c.Gives k key s d) : c.stored <+: d.stored := by
  by_cases some : ∃ e ∈ c.stored, e.Keyed k key
  · obtain ⟨e, he, keyed⟩ := some
    rw [(h.found e he keyed).2]
  · rw [h.added fun e he keyed => some ⟨e, he, keyed⟩]
    exact List.prefix_append _ _

theorem Run.stored (h : c.Run d) : c.stored <+: d.stored := by
  induction h with
  | nil => exact List.prefix_refl _
  | request _ gives ih => exact ih.trans gives.stored

theorem Asked.name (h : c.Asked d) : d.name = c.name := by
  induction h with
  | refl => rfl
  | @store d s _ _ ih =>
    cases hf : d.find? s with
    | some kept => rw [store_of_find? hf]; exact ih
    | none => rw [store_of_find?_none hf]; exact ih

end TypeContext

/-! ## Texts and serialized values -/

namespace Parser

theorem grows_instruction (env : ParserEnv) (expected : Option Kind) :
    Keeps (fun s t => s.context.Grows t.context) (instruction env expected) :=
  frame_grows.instruction (fun _ _ => .refl _) env expected

theorem grows_instructions (env : ParserEnv) (fuel : Nat) :
    Keeps (fun s t => s.context.Grows t.context) (instructions env fuel) :=
  frame_grows.instructions (fun _ _ => .refl _) env fuel

end Parser

namespace Reading

variable {α : Type} {p : Parser α} (text : String) (c : TypeContext) (b : Block)

theorem grows_run (h : Parser.Keeps (fun s t => s.context.Grows t.context) p) : c.Grows (run p text c b).context := by
  unfold run
  split
  · exact .refl c
  · next tokens _ => exact h (.start tokens c b)

theorem grows_instruction (env : ParserEnv) (expected : Option Kind) :
    c.Grows (Reading.instruction env expected text c b).context := by
  have hR := Parser.frame_grows
  exact grows_run text c b (hR.bind (Parser.grows_instruction env expected) fun op =>
    hR.bind hR.expectEnd fun _ => hR.pure op)

theorem grows_module (env : ParserEnv) : c.Grows (Reading.module env text c b).context := by
  have hR := Parser.frame_grows
  exact grows_run text c b (hR.bind hR.get fun s => Parser.grows_instructions env s.rest.length)

end Reading

namespace Wire

theorem keeps_readBlockValue (j : Json) : Keeps (readBlockValue j) := by
  unfold readBlockValue
  split
  · split
    · exact keeps_readBlock (fun j => (keeps_answers_readWithin _ j).1) _
    · exact keeps_bind (grows_read _) fun _ => keeps_throw _
  · exact keeps_throw _

theorem grows_loadWith {α : Type} {reader : Json → Loader α} (h : ∀ j, Keeps (reader j)) (bs : ByteArray)
    (compressed : Bool) (c : TypeContext) : c.Grows (loadWith reader bs compressed c).2 := by
  unfold loadWith
  split
  · exact .refl c
  · split
    · exact .refl c
    · next j _ => exact h j c

end Wire

/-! ## Histories -/

namespace TypeContexts

def after (cs : TypeContexts) : Except RequestFault (OwnedType × TypeContexts) → TypeContexts
  | .ok (_, cs') => cs'
  | .error _ => cs

/-- One step of a history, whether it succeeds or not. A request comes with plain values and types that contexts
keep; what is loaded has its types in the default context. -/
inductive Serves (cs : TypeContexts) : TypeContexts → Prop
  | intern (c : TyClass) (params : List TypeParam) (context : String) :
    (∀ p ∈ params, cs.Has p) → Serves cs (cs.after (cs.intern c params context))
  | request (c : TyClass) (params : List TypeParam) (context : Option String) :
    (∀ p ∈ params, cs.Has p) → Serves cs (cs.after (cs.request c params context))
  | type (r : Registry) (text name : String) : Serves cs (cs.set (Reading.type r text (cs.get name)).context)
  | instruction (env : ParserEnv) (expected : Option Kind) (text name : String) (b : Block) :
    Serves cs (cs.set (Reading.instruction env expected text (cs.get name) b).context)
  | module (env : ParserEnv) (text name : String) (b : Block) :
    Serves cs (cs.set (Reading.module env text (cs.get name) b).context)
  | value (j : Json) : Serves cs (cs.set (Wire.read j cs.default).2)
  | load (bs : ByteArray) (compressed : Bool) : Serves cs (cs.set (Wire.loads bs compressed cs.default).2)
  | block (text : String) : Serves cs (cs.set (Wire.loadBlock text cs.default).2)

/-- The contexts come up in some history. -/
inductive Reached : TypeContexts → Prop
  | start : Reached .start
  | step {cs cs' : TypeContexts} : Reached cs → cs.Serves cs' → Reached cs'

variable {cs cs' : TypeContexts} {n : String} {d : TypeContext}

theorem asked_set (h : (cs.get n).Asked d) (m : String) : (cs.get m).Asked ((cs.set d).get m) := by
  have name : d.name = n := h.name.trans name_get
  subst name
  by_cases hm : m = d.name
  · rw [hm, get_set_self]; exact h
  · rw [get_set_of_ne hm]; exact .refl

theorem asked_intern {c : TyClass} {ps : List TypeParam} (has : ∀ p ∈ ps, cs.Has p) (m : String) :
    (cs.get m).Asked ((cs.after (cs.intern c ps n)).get m) := by
  cases h : cs.intern c ps n with
  | error f => exact .refl
  | ok answer =>
    obtain ⟨t, cs'⟩ := answer
    obtain ⟨s, makes, owned, -, rfl⟩ := intern_eq_ok h
    exact asked_set (.store .refl (takes_of_makes makes has owned)) m

theorem Serves.asked (h : cs.Serves cs') (m : String) : (cs.get m).Asked (cs'.get m) := by
  have loaded : ∀ {d : TypeContext}, cs.default.Grows d → (cs.get m).Asked ((cs.set d).get m) := fun h =>
    asked_set (n := cs.default.name) (by rw [get_default]; exact h.asked) m
  cases h with
  | intern c ps n has => exact asked_intern has m
  | request c ps context has =>
    cases h : cs.request c ps context with
    | error f => exact .refl
    | ok answer =>
      obtain ⟨t, cs'⟩ := answer
      obtain ⟨rs, qs, -, -, has, h⟩ := request_eq_ok has h
      have := asked_intern (n := t.owner) (c := c) has m
      rwa [h] at this
  | type r text name => exact asked_set (Reading.grows_type r text _).asked m
  | instruction env expected text name b => exact asked_set (Reading.grows_instruction text _ b env expected).asked m
  | module env text name b => exact asked_set (Reading.grows_module text _ b env).asked m
  | value j => exact loaded (Wire.grows_read j cs.default)
  | load bs compressed => exact loaded (Wire.grows_loadWith (fun j => Wire.grows_read j) bs compressed cs.default)
  | block text => exact loaded (Wire.grows_loadWith Wire.keeps_readBlockValue text.toUTF8 false cs.default)

theorem Reached.coherent (h : Reached cs) (n : String) : (cs.get n).Coherent := by
  induction h with
  | start =>
    unfold TypeContexts.start get
    split
    · exact TypeContext.coherent_default
    · exact TypeContext.coherent_empty n
  | step _ serves ih => exact ((serves.asked n).run ih).1

/-- **Interning.** After any history, entries with equal keys stand in the same place in their context, so that a
type is the same object as another one of its context exactly if their keys are equal, and the base of a gate under
control qubits is an entry in front of it. Each further step makes requests, one after the other, each of which is
given the entry with its key or adds one entry, and all earlier entries stay in their places. A request for a class
with parameters, if it is accepted, is answered under just that key by the context that is named, which owns all types
among the parameters, and all other contexts stay; if it is rejected, all of them do. What a getter answers is what it
interns with its parameters filled in. -/
theorem Reached.interning (h : Reached cs) :
    (∀ n, (∀ (i j : Nat) (a b : StoredType), (cs.get n).stored[i]? = some a → (cs.get n).stored[j]? = some b →
        (i = j ∨ a.Keyed b.type.tyClass b.key ↔ i = j)) ∧
      ∀ (i : Nat) (s : StoredType) (b : GateBase) (m : Option Nat), (cs.get n).stored[i]? = some s →
        s.type = .controlled b m → ∃ j < i, (cs.get n).stored[j]? = some ⟨b.ty, s.surplus⟩) ∧
    (∀ cs', cs.Serves cs' → ∀ n, (cs.get n).Run (cs'.get n) ∧ (cs.get n).stored <+: (cs'.get n).stored) ∧
    ∀ (c : TyClass) (ps : List TypeParam), (∀ p ∈ ps, cs.Has p) →
      (∀ n t cs', cs.intern c ps n = .ok (t, cs') → t.owner = n ∧ (∀ u, .owned u ∈ ps → u.owner = n) ∧
        (cs.get n).Gives c (ps.map TypeParam.key) t.toStoredType (cs'.get n) ∧ ∀ m, m ≠ n → cs'.get m = cs.get m) ∧
      (∀ n f, cs.intern c ps n = .error f → cs.after (cs.intern c ps n) = cs) ∧
      ∀ context t cs', cs.request c ps context = .ok (t, cs') → ∃ rs qs, (rs = ps ∨ withoutContext c ps = .ok rs) ∧
        c.complete rs = .ok qs ∧ (∀ p ∈ qs, cs.Has p) ∧ cs.intern c qs t.owner = .ok (t, cs') := by
  refine ⟨fun n => ⟨fun i j a b hi hj => ⟨?_, .inl⟩, (h.coherent n).based⟩, fun cs' serves n => ?_, fun c ps has =>
    ⟨fun n t cs' answer => ?_, fun n f rejected => by rw [rejected]; rfl, fun context t cs' => request_eq_ok has⟩⟩
  · have coherent := h.coherent n
    rintro (same | keyed)
    · exact same
    · refine coherent.index_eq hi hj ((StoredType.same_iff_keyed ?_ ?_).mpr keyed)
      · exact coherent.formed a (List.mem_of_getElem? hi)
      · exact coherent.formed b (List.mem_of_getElem? hj)
  · have run := ((serves.asked n).run (h.coherent n)).2
    exact ⟨run, run.stored⟩
  · obtain ⟨s, makes, owned, rfl, rfl⟩ := intern_eq_ok answer
    have takes := takes_of_makes makes has owned
    have name : ((cs.get n).store s).2.name = n := (TypeContext.Asked.store .refl takes).name.trans name_get
    refine ⟨rfl, owned, ?_, fun m hm => get_set_of_ne (by rwa [name])⟩
    have left := get_set_self cs ((cs.get n).store s).2
    rw [name] at left
    rw [left]
    exact (h.coherent n).gives makes takes

/-- A register of two qubits is asked for twice, and the second request is given the first one. -/
theorem Reached.interning_twice :
    ∃ (cs cs' : TypeContexts) (t : OwnedType), Reached cs ∧ cs.Serves cs' ∧
      cs.intern .register [.attr (.int 2)] "c" = .ok (t, cs') ∧ t = ⟨⟨.register (some 2), []⟩, "c"⟩ ∧
      cs'.get "c" = cs.get "c" ∧ (cs.get "c").Run (cs'.get "c") := by
  have values : ∀ cs : TypeContexts, ∀ p ∈ [TypeParam.attr (.int 2)], cs.Has p := by simp [Has, Attr.type?]
  have first : Reached ⟨.default, [⟨"c", [⟨.register (some 2), []⟩]⟩]⟩ :=
    .step .start (.intern .register [.attr (.int 2)] "c" (values _))
  have again : Serves ⟨.default, [⟨"c", [⟨.register (some 2), []⟩]⟩]⟩ ⟨.default, [⟨"c", [⟨.register (some 2), []⟩]⟩]⟩ :=
    .intern .register [.attr (.int 2)] "c" (values _)
  obtain ⟨-, steps, answers⟩ := first.interning
  obtain ⟨-, -, gives, -⟩ := (answers .register [.attr (.int 2)] (values _)).1 "c"
    ⟨⟨.register (some 2), []⟩, "c"⟩ _ rfl
  have found := gives.found ⟨.register (some 2), []⟩ (by simp [get, TypeContext.default]) (by decide)
  exact ⟨_, _, _, first, again, rfl, rfl, found.2, (steps _ again "c").1⟩

/-- The width one as a floating point number is rejected although a type with an equal key is there from the start:
what a class does not take is not looked for. -/
theorem rejects_equal_key :
    ∃ e ∈ (start.get "default").stored,
      e.Keyed .integer ([TypeParam.attr (.float ⟨4607182418800017408⟩)].map TypeParam.key) ∧
      ∃ f, start.intern .integer [.attr (.float ⟨4607182418800017408⟩)] "default" = .error f := by
  exact ⟨⟨.integer (.ofNat 1), []⟩, by simp [start, get, TypeContext.default], by decide +kernel, _, rfl⟩

end TypeContexts

end GateAsm
