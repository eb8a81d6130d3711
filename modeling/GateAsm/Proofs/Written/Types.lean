import GateAsm.Operation.Printer
import GateAsm.Proofs.Grammar.TypeExpr
import GateAsm.Proofs.Lexing

/-!
# Types as they are written

The text of a type with integers for parameters is one of the written forms of that type
(`ty?_form`), and the lexer finds the words of the form in it. Conversely every type that is written
has such a text.
-/

namespace GateAsm

/-! ## Lists -/

theorem emits_intercalate {α : Type} {f : α → String} {w : α → List Word} (xs : List α)
    (h : ∀ x ∈ xs, Emits (f x).toList (w x)) :
    Emits (", ".intercalate (xs.map f)).toList (listed (xs.map w)) := by
  induction xs with
  | nil => exact .nil
  | cons x xs ih =>
    have first := h x List.mem_cons_self
    cases xs with
    | nil => simpa [listed_cons] using first
    | cons y ys =>
      have rest := ih fun z hz => h z (List.mem_cons_of_mem _ hz)
      have := first.append ((rest.behind_space (c := ' ') rfl).emits.behind_mark (c := ',') rfl)
      simpa [String.intercalate_cons_cons, listed_cons] using this

/-! ## The registry -/

/-- The standard keywords have their grammars, and every kind is one of its own name. -/
structure Registry.Sound (r : Registry) : Prop where
  keywords : ∀ e ∈ Registry.standard.keywords, r.keyword? e.1 = e.2
  valid : ∀ e ∈ r.kinds, e.2.Valid
  named : ∀ e ∈ r.kinds, e.2.name = e.1

theorem Registry.mem_of_kind? {r : Registry} {n : String} {k : Kind} (h : r.kind? n = some k) : (n, k) ∈ r.kinds := by
  obtain ⟨⟨m, k'⟩, he, rfl⟩ := Option.map_eq_some_iff.mp h
  have hn : m = n := by simpa using List.find?_some he
  exact hn ▸ List.mem_of_find?_eq_some he

theorem Registry.Sound.valid_of_kind? {r : Registry} (hr : r.Sound) {n : String} {k : Kind} (h : r.kind? n = some k) :
    k.Valid := hr.valid _ (Registry.mem_of_kind? h)

theorem Registry.Sound.name_of_kind? {r : Registry} (hr : r.Sound) {n : String} {k : Kind} (h : r.kind? n = some k) :
    k.name = n := hr.named _ (Registry.mem_of_kind? h)

theorem Registry.sound_standard : Registry.standard.Sound := ⟨by decide, by decide, by decide⟩

/-! ## Types -/

namespace Ty

/-- The type can be written and read: it stands for values, and its parameters are integers in range and
not too long. -/
structure Readable (t : Ty) : Prop where
  plain : t.plain = t
  wellFormed : t.WellFormed
  concrete : t ≠ .abstract
  few : ∀ n, t.number? = some n → FewDigits n

theorem Readable.unshown?_eq {t : Ty} (h : t.Readable) : t.unshown? = none := by
  unfold Ty.unshown?
  rw [if_neg h.concrete, if_pos]
  cases hn : t.number? with
  | none => rfl
  | some n =>
    rw [Option.all_some]
    exact decide_eq_true (h.few n hn)

def form : Ty → TypeSyntax
  | register n => .register "register" (n.map toString)
  | controlled b n => .controlled "cgate" (n.map toString) b.text
  | t => .plain t.text

theorem natOfDigits_pos {d : Char} (hd : d.isDigit = true) (hzero : d ≠ '0') (ds : List Char) :
    1 ≤ Floating.natOfDigits (d :: ds) := by
  have first : 49 ≤ d.toNat := by
    simp only [Char.isDigit, Bool.and_eq_true, decide_eq_true_eq, UInt32.le_iff_toNat_le, ge_iff_le] at hd
    have low : 48 ≤ d.toNat := hd.1
    have : d.toNat ≠ 48 := fun h => hzero (Char.toNat_inj.mp h)
    omega
  have grows : ∀ (ds : List Char) (a : Nat), 1 ≤ a → 1 ≤ ds.foldl (fun n c => 10 * n + (c.toNat - 48)) a := by
    intro ds
    induction ds with
    | nil => exact fun _ h => h
    | cons e ds ih => intro a h; exact ih _ (by dsimp only; omega)
  exact grows ds _ (by dsimp only; omega)

theorem builtinType?_integer : ∀ n < 65, 1 ≤ n →
    Parser.builtinType? ("i" ++ toString n) = some (.integer (.ofNat n)) := by decide

theorem isName_append_digits {c : Char} (hc : isNameStart c = true) (n : Nat) :
    IsName (String.singleton c ++ toString n) :=
  ⟨c, Nat.toDigits 10 n, by simp [Nat.toString_eq_repr, Nat.toList_repr], hc,
    fun _ hd => digit_nameChar (Nat.isDigit_of_mem_toDigits (by decide) (by decide) hd)⟩

theorem numberAbove?_toString {low : Int} {n : Nat} (hf : FewDigits n) (hl : low < n) :
    TypeSyntax.numberAbove? low (some (toString n)) = some (some n) := by
  have same : toString n = toString (n : Int) := rfl
  rw [same, TypeSyntax.numberAbove?_some_iff]
  exact ⟨n, intLiteral?_toString hf, hl, rfl⟩

/-- A type is read from the form in which it is written. -/
theorem ty?_form {r : Registry} (hr : r.Sound) {t : Ty} (h : t.Readable) : t.form.ty? r = some t := by
  have keyword := hr.keywords
  simp only [Registry.standard, List.forall_mem_cons] at keyword
  obtain ⟨hqubit, hregister, hgate1, hgate2, hcgate, hcircuit, -⟩ := keyword
  have word : ∀ {w : String} {g : TypeGrammar}, Parser.builtinType? w = none → r.keyword? w = some g →
      TypeSyntax.Introduces r w g := fun hb hk => ⟨hb, hk⟩
  have gate : ∀ b : GateBase, (TypeSyntax.plainTy? r b.text).bind Ty.base? = some b := by
    intro b
    cases b with
    | gate1 =>
      simp [GateBase.text, TypeSyntax.plainTy?, show Parser.builtinType? "gate1" = none by decide, hgate1, base?]
    | gate2 =>
      simp [GateBase.text, TypeSyntax.plainTy?, show Parser.builtinType? "gate2" = none by decide, hgate2, base?]
    | circuit =>
      simp [GateBase.text, TypeSyntax.plainTy?, show Parser.builtinType? "circuit" = none by decide, hcircuit, base?]
  cases t with
  | abstract => exact absurd rfl h.concrete
  | integer w =>
    obtain ⟨n, f⟩ := w
    obtain rfl : f = .int := by simpa [plain, Width.ofNat, eq_comm] using h.plain
    have hb := builtinType?_integer n (Nat.lt_succ_of_le h.wellFormed.2) h.wellFormed.1
    simp only [form, text, Width.text, TypeSyntax.ty?, TypeSyntax.plainTy?, hb]
    rfl
  | float w =>
    obtain ⟨n, f⟩ := w
    obtain rfl : f = .int := by simpa [plain, Width.ofNat, eq_comm] using h.plain
    rcases h.wellFormed with hn | hn | hn <;> cases hn <;> rfl
  | register n =>
    simp only [form, TypeSyntax.ty?, if_pos (word (by decide) hregister)]
    cases n with
    | none => rfl
    | some n =>
      have hl : (1 : Int) < n := by have := h.wellFormed; simp only [WellFormed] at this; omega
      rw [Option.map_some, numberAbove?_toString (h.few n rfl) hl]
      rfl
  | controlled b n =>
    simp only [form, TypeSyntax.ty?, if_pos (word (by decide) hcgate), gate]
    cases n with
    | none => rfl
    | some n =>
      have hl : (0 : Int) < n := by have := h.wellFormed; simp only [WellFormed] at this; omega
      rw [Option.map_some, numberAbove?_toString (h.few n rfl) hl]
      rfl
  | index => rfl
  | qubit =>
    simp [form, text, TypeSyntax.ty?, TypeSyntax.plainTy?, show Parser.builtinType? "qubit" = none by decide, hqubit]
  | gate1 =>
    simp [form, text, TypeSyntax.ty?, TypeSyntax.plainTy?, show Parser.builtinType? "gate1" = none by decide, hgate1]
  | gate2 =>
    simp [form, text, TypeSyntax.ty?, TypeSyntax.plainTy?, show Parser.builtinType? "gate2" = none by decide, hgate2]
  | circuit =>
    simp [form, text, TypeSyntax.ty?, TypeSyntax.plainTy?,
      show Parser.builtinType? "circuit" = none by decide, hcircuit]

theorem emits_form {t : Ty} (h : t.Readable) : Emits t.text.toList t.form.words := by
  have closed : Follows [ '>' ] [.mark .more] := Emits.nil.behind_mark (c := '>') rfl
  have plain_text : ∀ s : String, toString s = s := fun _ => rfl
  have count : ∀ (n : Nat) (b : GateBase),
      Follows ('<' :: ((toString n).toList ++ (',' :: ' ' :: (b.text.toList ++ ['>']))))
      (.mark .less :: ⟨.int, toString n⟩ :: .mark .comma :: ⟨.word, b.text⟩ :: [.mark .more]) := by
    intro n b
    have base := (emits_name (n := b.text) (by cases b <;> decide)).append closed
    exact ((emits_nat n).append ((base.behind_space (c := ' ') rfl).emits.behind_mark (c := ',') rfl)).behind_mark
      (c := '<') rfl
  cases t with
  | abstract => exact absurd rfl h.concrete
  | integer w =>
    obtain ⟨n, f⟩ := w
    obtain rfl : f = .int := by simpa [plain, Width.ofNat, eq_comm] using h.plain
    exact emits_name (isName_append_digits (c := 'i') rfl n)
  | float w =>
    obtain ⟨n, f⟩ := w
    obtain rfl : f = .int := by simpa [plain, Width.ofNat, eq_comm] using h.plain
    exact emits_name (isName_append_digits (c := 'f') rfl n)
  | register n =>
    have keyword : Emits "register".toList [⟨.word, "register"⟩] := emits_name (by decide)
    cases n with
    | none => exact keyword.append (closed.emits.behind_mark (c := '<') rfl)
    | some n =>
      have := keyword.append (((emits_nat n).append closed).behind_mark (c := '<') rfl)
      simpa [text, form, TypeSyntax.words, plain_text] using this
  | controlled b n =>
    have keyword : Emits "cgate".toList [⟨.word, "cgate"⟩] := emits_name (by decide)
    cases n with
    | none =>
      have base := (emits_name (n := b.text) (by cases b <;> decide)).append closed
      have := keyword.append (base.behind_mark (c := '<') rfl)
      simpa [text, form, TypeSyntax.words, TypeSyntax.countWords, plain_text] using this
    | some n => simpa [text, form, TypeSyntax.words, TypeSyntax.countWords, plain_text] using keyword.append (count n b)
  | _ => exact emits_name (by decide)

/-! ## Types that are read can be written -/

theorem readable_builtin {w : String} {t : Ty} (h : Parser.builtinType? w = some t) : t.Readable := by
  have float : ∀ n, n = 16 ∨ n = 32 ∨ n = 64 → (Ty.float (.ofNat n)).Readable := fun n hn =>
    ⟨rfl, hn, nofun, nofun⟩
  unfold Parser.builtinType? at h
  split at h
  · cases h; exact ⟨rfl, trivial, nofun, nofun⟩
  split at h
  · cases h; exact float 16 (.inl rfl)
  split at h
  · cases h; exact float 32 (.inr (.inl rfl))
  split at h
  · cases h; exact float 64 (.inr (.inr rfl))
  split at h
  · next d ds _ =>
    dsimp only at h
    split at h
    · next hc =>
      cases h
      simp only [Bool.and_eq_true, bne_iff_ne, decide_eq_true_eq] at hc
      obtain ⟨⟨⟨⟨hd, hzero⟩, -⟩, -⟩, hle⟩ := hc
      refine ⟨rfl, ⟨?_, hle⟩, nofun, nofun⟩
      have := natOfDigits_pos hd hzero ds
      exact this
    · cases h
  · cases h

theorem readable_word {r : Registry} {w : String} {t : Ty} (h : TypeSyntax.plainTy? r w = some t) : t.Readable := by
  unfold TypeSyntax.plainTy? at h
  split at h
  · next hb => cases h; exact readable_builtin hb
  · split at h <;> cases h <;> exact ⟨rfl, trivial, nofun, nofun⟩

theorem numberAbove?_few {low : Int} {d : Option String} {n : Option Nat}
    (hs : ∀ x ∈ d, IsInteger x) (h : TypeSyntax.numberAbove? low d = some n) (hl : 0 ≤ low) :
    ∀ m, n = some m → low < m ∧ FewDigits m := by
  rintro m rfl
  cases d with
  | none => cases h
  | some d =>
    obtain ⟨k, hk, hlow, hm⟩ := TypeSyntax.numberAbove?_some_iff.mp h
    cases hm
    have few := fewDigits_of_intLiteral? (hs d rfl) hk
    have same : ((k.toNat : Nat) : Int) = k := Int.toNat_of_nonneg (by omega)
    rw [same]; exact ⟨hlow, few⟩

/-- A type that is read has parameters with which it can be written. -/
theorem readable_of_ty? {r : Registry} {w : TypeSyntax} {t : Ty} (hs : ∀ x ∈ w.words, x.Spelled)
    (h : w.ty? r = some t) : t.Readable := by
  cases w with
  | plain w => exact readable_word h
  | register k size =>
    obtain ⟨-, n, hn, rfl⟩ := TypeSyntax.ty?_register h
    have few := numberAbove?_few (d := size) (fun d hd => by
      cases hd; exact hs ⟨.int, d⟩ (by simp [TypeSyntax.words])) hn (by decide)
    refine ⟨rfl, ?_, by simp, fun m hm => (few m hm).2⟩
    cases n with
    | none => trivial
    | some n => exact Int.ofNat_lt.mp (few n rfl).1
  | controlled k count base =>
    obtain ⟨-, b, n, -, hn, rfl⟩ := TypeSyntax.ty?_controlled h
    have few := numberAbove?_few (d := count) (fun d hd => by
      cases hd; exact hs ⟨.int, d⟩ (by simp [TypeSyntax.words, TypeSyntax.countWords])) hn (by decide)
    refine ⟨rfl, ?_, by simp, fun m hm => (few m hm).2⟩
    cases n with
    | none => trivial
    | some n => exact Int.ofNat_lt.mp (few n rfl).1

theorem readable_of_tys? {r : Registry} {ws : List TypeSyntax} {ts : List Ty}
    (hs : ∀ w ∈ ws, ∀ x ∈ w.words, x.Spelled) (h : TypeSyntax.tys? r ws = some ts) : ∀ t ∈ ts, t.Readable := by
  induction ws generalizing ts with
  | nil => cases h; nofun
  | cons w ws ih =>
    obtain ⟨t, us, ht, hu, rfl⟩ := TypeSyntax.tys?_cons_iff.mp h
    intro x hx
    rcases List.mem_cons.mp hx with rfl | hx
    · exact readable_of_ty? (hs w List.mem_cons_self) ht
    · exact ih (fun v hv => hs v (List.mem_cons_of_mem _ hv)) hu x hx

end Ty

/-! ## Lists of types -/

theorem tys?_form {r : Registry} (hr : r.Sound) {ts : List Ty} (h : ∀ t ∈ ts, t.Readable) :
    TypeSyntax.tys? r (ts.map Ty.form) = some ts := by
  induction ts with
  | nil => rfl
  | cons t ts ih =>
    exact TypeSyntax.tys?_cons_iff.mpr ⟨t, ts, Ty.ty?_form hr (h t List.mem_cons_self),
      ih fun u hu => h u (List.mem_cons_of_mem _ hu), rfl⟩

def typesText (mark : String) (ts : List Ty) : String :=
  if ts.isEmpty then "" else mark ++ ", ".intercalate (ts.map Ty.text)

theorem emits_types {ts : List Ty} (h : ∀ t ∈ ts, t.Readable) :
    Emits (", ".intercalate (ts.map Ty.text)).toList (listed ((ts.map Ty.form).map TypeSyntax.words)) := by
  rw [List.map_map]
  exact emits_intercalate ts fun t ht => Ty.emits_form (h t ht)

theorem follows_colonTypes {ts : List Ty} (h : ∀ t ∈ ts, t.Readable) :
    Follows (typesText " : " ts).toList (TypeSyntax.marked .colon (ts.map Ty.form)) := by
  have list := emits_types h
  cases ts with
  | nil => exact .nil
  | cons t ts =>
    have := ((list.behind_space (c := ' ') rfl).emits.behind_mark (c := ':') rfl).emits.behind_space (c := ' ') rfl
    simpa [typesText, TypeSyntax.marked] using this

theorem follows_arrowTypes {ts : List Ty} (h : ∀ t ∈ ts, t.Readable) :
    Follows (typesText " -> " ts).toList (TypeSyntax.marked .arrow (ts.map Ty.form)) := by
  have list := emits_types h
  cases ts with
  | nil => exact .nil
  | cons t ts =>
    have := (list.behind_space (c := ' ') rfl).emits.behind_arrow.emits.behind_space (c := ' ') rfl
    simpa [typesText, TypeSyntax.marked] using this

/-! ## The printer -/

namespace Printer

variable {env : PrintEnv} {ts : List Ty}

theorem shown_type {t : Ty} (h : t.Readable) : env.shown (.type t) = .ok t.text := by
  have shown : (Attr.type t).unshown? = none := h.unshown?_eq
  rw [PrintEnv.shown.eq_def]
  simp only [Attr.shown, shown]
  rfl

theorem shown_int {n : Int} (h : FewDigits n) : env.shown (.int n) = .ok (toString n) := by
  rw [PrintEnv.shown.eq_def]
  simp only [Attr.shown, Attr.unshown?, if_pos h]
  rfl

theorem shown_types (h : ∀ t ∈ ts, t.Readable) : (ts.map Attr.type).mapM env.shown = .ok (ts.map Ty.text) := by
  induction ts with
  | nil => rfl
  | cons t ts ih =>
    rw [List.map_cons, List.mapM_cons, shown_type (h t List.mem_cons_self), ih fun u hu =>
      h u (List.mem_cons_of_mem _ hu)]
    rfl

theorem colonTypes_eq (h : ∀ t ∈ ts, t.Readable) : colonTypes env (ts.map .type) = .ok (typesText " : " ts) := by
  cases ts with
  | nil => rfl
  | cons t ts => simp only [colonTypes, typeList, shown_types h]; rfl

theorem arrowTypes_eq (h : ∀ t ∈ ts, t.Readable) : arrowTypes env (ts.map .type) = .ok (typesText " -> " ts) := by
  cases ts with
  | nil => rfl
  | cons t ts => simp only [arrowTypes, typeList, shown_types h]; rfl

end Printer

end GateAsm
