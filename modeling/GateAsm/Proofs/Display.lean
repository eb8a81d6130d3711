import GateAsm.Proofs.Assembled
import GateAsm.Proofs.Fresh
import Mathlib.Data.List.Nodup

/-!
# Names for display

The printer numbers the anonymous results of operations whose results are not all idle. The numbers grow, and
their names are free in the block. So every value that an operation uses has a name that can be written, and no
two values have the same one.
-/

namespace GateAsm

namespace Block

variable {r : Registry} {b : Block}

/-! ## Numbers -/

theorem isValueName_numberedName (n : Nat) : IsValueName (numberedName n) := by
  obtain ⟨c, cs, digits⟩ := List.exists_cons_of_ne_nil (Nat.toDigits_ne_nil (b := 10) (n := n))
  refine ⟨c, cs, by simp [numberedName, Nat.toString_eq_repr, Nat.toList_repr, digits], fun d hd => ?_⟩
  exact digit_nameChar (Nat.isDigit_of_mem_toDigits (by decide) (by decide) (digits ▸ hd))

theorem le_freeNumber (b : Block) (tries n : Nat) : n ≤ b.freeNumber tries n := by
  induction tries generalizing n with
  | zero => exact Nat.le_refl n
  | succ tries ih =>
    rw [freeNumber]
    split
    · exact Nat.le_refl n
    · exact Nat.le_trans (Nat.le_succ n) (ih (n + 1))

theorem freeNumber_scope (b : Block) (n : Nat) : b.inScope? (numberedName (b.freeNumber b.scope.length n)) = none := by
  rw [freeNumber_eq]
  exact firstFree_scope numberedName_injective n

/-! ## Numbered values -/

/-- The values are numbered from `n` on with growing numbers that are free. -/
structure Numbers (b : Block) (ids : List Nat) (names : ShownNames) (n next : Nat) : Prop where
  values : names.map (·.1) = ids
  numbers : ∃ ms : List Nat, names.map (·.2) = ms.map numberedName ∧ ms.Pairwise (· < ·) ∧
    ∀ m ∈ ms, n ≤ m ∧ m < next ∧ b.inScope? (numberedName m) = none
  le : n ≤ next

theorem Numbers.nil (b : Block) (n : Nat) : b.Numbers [] [] n n :=
  ⟨rfl, ⟨[], rfl, .nil, nofun⟩, Nat.le_refl n⟩

theorem Numbers.append {ids ids' : List Nat} {names names' : ShownNames} {n k next : Nat} (h : b.Numbers ids names n k)
    (h' : b.Numbers ids' names' k next) : b.Numbers (ids ++ ids') (names ++ names') n next := by
  obtain ⟨rfl, ⟨ms, hms, grow, free⟩, le⟩ := h
  obtain ⟨rfl, ⟨ms', hms', grow', free'⟩, le'⟩ := h'
  refine ⟨List.map_append, ⟨ms ++ ms', ?_, List.pairwise_append.mpr ⟨grow, grow', fun m hm m' hm' => ?_⟩,
    fun m hm => ?_⟩, Nat.le_trans le le'⟩
  · rw [List.map_append, List.map_append, hms, hms']
  · exact Nat.lt_of_lt_of_le (free m hm).2.1 (free' m' hm').1
  · rcases List.mem_append.mp hm with hm | hm
    · exact ⟨(free m hm).1, Nat.lt_of_lt_of_le (free m hm).2.1 le', (free m hm).2.2⟩
    · exact ⟨Nat.le_trans le (free' m hm).1, (free' m hm).2⟩

theorem Numbers.skip {ids : List Nat} {names : ShownNames} {n k next : Nat} (h : b.Numbers ids names k next)
    (hk : n ≤ k) :
    b.Numbers ids names n next := by
  obtain ⟨values, ⟨ms, hms, grow, free⟩, le⟩ := h
  exact ⟨values, ⟨ms, hms, grow, fun m hm => ⟨Nat.le_trans hk (free m hm).1, (free m hm).2⟩⟩, Nat.le_trans hk le⟩

theorem nameResults_numbers (b : Block) (ids : List Nat) (n : Nat) :
    b.Numbers (ids.filter b.isAnonymous) (b.nameResults ids n).1 n (b.nameResults ids n).2 := by
  induction ids generalizing n with
  | nil => exact .nil b n
  | cons id ids ih =>
    rw [nameResults]
    split
    · next ha =>
      rw [List.filter_cons_of_pos ha]
      have first : b.Numbers [id] [(id, numberedName (b.freeNumber b.scope.length n))] n
          (b.freeNumber b.scope.length n + 1) :=
        ⟨rfl, ⟨[b.freeNumber b.scope.length n], rfl, List.pairwise_singleton .., List.forall_mem_singleton.mpr
          ⟨le_freeNumber .., Nat.lt_succ_self _, freeNumber_scope ..⟩⟩, Nat.le_succ_of_le (le_freeNumber ..)⟩
      exact first.append (ih _)
    · next ha =>
      rw [List.filter_cons_of_neg ha]
      exact ih n

def numberedResults (b : Block) (ops : List Operation) : List Nat :=
  (ops.filter fun op => !op.results.all b.isIdle).flatMap fun op => op.results.filter b.isAnonymous

theorem nameOperations_numbers (b : Block) (ops : List Operation) (n : Nat) :
    ∃ next, b.Numbers (b.numberedResults ops) (b.nameOperations ops n) n next := by
  induction ops generalizing n with
  | nil => exact ⟨n, .nil b n⟩
  | cons op ops ih =>
    rw [nameOperations]
    split
    · next hidle =>
      rw [numberedResults, List.filter_cons_of_neg (by simpa using hidle)]
      exact ih n
    · next hidle =>
      rw [numberedResults, List.filter_cons_of_pos (by simpa using hidle), List.flatMap_cons]
      obtain ⟨next, rest⟩ := ih (b.nameResults op.results n).2
      exact ⟨next, (nameResults_numbers b op.results n).append rest⟩

/-! ## Shown names -/

def displayText (b : Block) (id : Nat) : String := b.shownText b.displayNames id

/-- All values are shown under texts: those with names under their own, those that are used under free names of
their own, and the results of one operation either all under names or all under none. -/
structure Displays (b : Block) : Prop where
  text : ∀ id < b.values.length, b.shownName b.displayNames id = .text (b.displayText id)
  named : ∀ id < b.values.length, IsValueName (b.displayText id) ∨ ¬ Visible (b.displayText id)
  distinct : ∀ id < b.values.length, ∀ id' < b.values.length, Visible (b.displayText id) →
    b.displayText id = b.displayText id' → id = id'
  own : ∀ id n, b.lookup n = some id → b.displayText id = n
  free : ∀ id < b.values.length, (∀ n, b.lookup n ≠ some id) → b.lookup (b.displayText id) = none
  input : ∀ id ∈ b.inputs, Visible (b.displayText id)
  operand : ∀ op ∈ b.operations, ∀ id ∈ op.operands, Visible (b.displayText id)
  uniform : ∀ op ∈ b.operations, (∀ id ∈ op.results, Visible (b.displayText id)) ∨
    ∀ id ∈ op.results, ¬ Visible (b.displayText id)

theorem Numbers.shown {ids : List Nat} {names : ShownNames} {n next id : Nat} (h : b.Numbers ids names n next)
    (hid : id ∈ ids) : ∃ m, (id, numberedName m) ∈ names ∧ b.inScope? (numberedName m) = none ∧
      b.shownName names id = .text (numberedName m) := by
  obtain ⟨rfl, ⟨ms, hms, -, free⟩, -⟩ := h
  obtain ⟨e, he, rfl⟩ := List.mem_map.mp hid
  obtain ⟨e', he'⟩ : ∃ e', names.find? (·.1 = e.1) = some e' :=
    Option.isSome_iff_exists.mp (List.find?_isSome.mpr ⟨e, he, by simp⟩)
  have key : e'.1 = e.1 := by simpa using List.find?_some he'
  have found := List.mem_of_find?_eq_some he'
  obtain ⟨m, hm, name⟩ := List.mem_map.mp (hms ▸ List.mem_map_of_mem found)
  refine ⟨m, ?_, (free m hm).2.2, ?_⟩
  · rw [← key, name]; exact found
  · rw [shownName, he', name]; rfl

theorem Numbers.unshown {ids : List Nat} {names : ShownNames} {n next id : Nat} (h : b.Numbers ids names n next)
    (hid : id ∉ ids) : b.shownName names id = b.nameOf id := by
  have : names.find? (·.1 = id) = none := List.find?_eq_none.mpr fun e he hkey =>
    hid (h.values ▸ List.mem_map.mpr ⟨e, he, by simpa using hkey⟩)
  rw [shownName, this]; rfl

theorem Numbers.nodup {ids : List Nat} {names : ShownNames} {n next : Nat} (h : b.Numbers ids names n next) :
    (names.map (·.2)).Nodup := by
  obtain ⟨-, ⟨ms, hms, grow, -⟩, -⟩ := h
  rw [hms]
  exact List.Nodup.map numberedName_injective (grow.imp Nat.ne_of_lt)

theorem isIdle_eq {id : Nat} (hid : id < b.values.length) : b.isIdle id = (b.isAnonymous id && b.isUnused id) := by
  have hv := Block.value?_of_lt hid
  simp only [isIdle, isAnonymous, isUnused, hv, Option.map_some, Option.getD_some]

namespace Orderly

theorem nodup_results (h : b.Orderly r) : (b.operations.flatMap (·.results)).Nodup :=
  (List.nodup_append.mp (h.parts.nodup_iff.mpr List.nodup_range)).2.1

theorem op_eq (h : b.Orderly r) {op op' : Operation} {id : Nat} (hop : op ∈ b.operations) (hop' : op' ∈ b.operations)
    (hid : id ∈ op.results) (hid' : id ∈ op'.results) : op = op' := by
  by_contra hne
  have apart := (List.nodup_flatMap.mp h.nodup_results).2
  have : Std.Symm (fun x y : Operation => List.Disjoint x.results y.results) := ⟨fun _ _ hd => hd.symm⟩
  exact apart.forall hop hop' hne hid hid'

theorem shown (h : b.Orderly r) {id : Nat} (hid : id < b.values.length) :
    (∃ n, IsValueName n ∧ b.lookup n = some id ∧ b.isAnonymous id = false ∧ b.shownName b.displayNames id = .text n) ∨
    id ∉ b.inputs ∧ b.isAnonymous id = true ∧ (∀ n, b.lookup n ≠ some id) ∧
      (id ∈ b.numberedResults b.operations ∧ (∃ m, (id, numberedName m) ∈ b.displayNames ∧
          b.lookup (numberedName m) = none ∧ b.shownName b.displayNames id = .text (numberedName m)) ∨
        id ∉ b.numberedResults b.operations ∧ ∃ s, b.shownName b.displayNames id = .text (anonymousMark ++ s)) := by
  obtain ⟨next, numbers⟩ := b.nameOperations_numbers b.operations 0
  rcases h.named id hid with ⟨n, hn, hl⟩ | ⟨hout, s, hs⟩
  · have name := nameOf_of_lookup h.wellScoped hl
    have known : b.isAnonymous id = false := (isAnonymous_of_name hid name).trans hn.visible
    refine .inl ⟨n, hn, hl, known, (numbers.unshown fun hm => ?_).trans name⟩
    obtain ⟨op, -, hm⟩ := List.mem_flatMap.mp hm
    rw [(List.mem_filter.mp hm).2] at known
    cases known
  · have hidden : ∀ n, b.lookup n ≠ some id := fun n hl => by
      have := (nameOf_of_lookup h.wellScoped hl).symm.trans hs
      cases this
      exact not_visible_anonymous s (visible_of_lookup hl)
    refine .inr ⟨hout, (isAnonymous_of_name hid hs).trans (startsWith_anonymous s), hidden, ?_⟩
    by_cases hm : id ∈ b.numberedResults b.operations
    · obtain ⟨m, hmem, free, shown⟩ := numbers.shown hm
      exact .inl ⟨hm, m, hmem, (lookup_eq (isValueName_numberedName m).visible).trans free, shown⟩
    · exact .inr ⟨hm, s, (numbers.unshown hm).trans hs⟩

theorem mem_numberedResults (h : b.Orderly r) {op : Operation} {id : Nat} (hop : op ∈ b.operations)
    (hid : id ∈ op.results) :
    id ∈ b.numberedResults b.operations ↔ b.isAnonymous id = true ∧ op.results.all b.isIdle = false := by
  constructor
  · intro hm
    obtain ⟨op', hop', hm⟩ := List.mem_flatMap.mp hm
    obtain ⟨hop', active⟩ := List.mem_filter.mp hop'
    obtain ⟨hid', ha⟩ := List.mem_filter.mp hm
    rw [h.op_eq hop hop' hid hid']
    exact ⟨ha, by simpa using active⟩
  · rintro ⟨ha, active⟩
    exact List.mem_flatMap.mpr ⟨op, List.mem_filter.mpr ⟨hop, by simp [active]⟩, List.mem_filter.mpr ⟨hid, ha⟩⟩

theorem shown_text (h : b.Orderly r) {id : Nat} (hid : id < b.values.length) :
    b.shownName b.displayNames id = .text (b.displayText id) := by
  rcases h.shown hid with ⟨n, -, -, -, hs⟩ | ⟨-, -, -, ⟨-, m, -, -, hs⟩ | ⟨-, s, hs⟩⟩ <;>
    rw [hs, displayText, shownText_eq _ hs]

/-- What a value is shown as: its own name, a number of its own, or no name at all. -/
theorem displayed (h : b.Orderly r) {id : Nat} (hid : id < b.values.length) :
    (IsValueName (b.displayText id) ∧ b.lookup (b.displayText id) = some id ∧ b.isAnonymous id = false) ∨
    id ∉ b.inputs ∧ b.isAnonymous id = true ∧ (∀ n, b.lookup n ≠ some id) ∧
      (id ∈ b.numberedResults b.operations ∧ IsValueName (b.displayText id) ∧ (id, b.displayText id) ∈ b.displayNames ∧
          b.lookup (b.displayText id) = none ∨
        id ∉ b.numberedResults b.operations ∧ ¬ Visible (b.displayText id) ∧ b.lookup (b.displayText id) = none) := by
  have text : ∀ {n}, b.shownName b.displayNames id = .text n → b.displayText id = n := fun h => shownText_eq _ h
  rcases h.shown hid with ⟨n, hn, hl, ha, hs⟩ | ⟨hout, ha, hidden, ⟨hm, m, hmem, free, hs⟩ | ⟨hm, s, hs⟩⟩
  · rw [text hs]
    exact .inl ⟨hn, hl, ha⟩
  · rw [text hs]
    exact .inr ⟨hout, ha, hidden, .inl ⟨hm, isValueName_numberedName m, hmem, free⟩⟩
  · rw [text hs]
    refine .inr ⟨hout, ha, hidden, .inr ⟨hm, not_visible_anonymous s, ?_⟩⟩
    rw [lookup, if_pos (startsWith_anonymous s)]

theorem displayText_distinct (h : b.Orderly r) {id id' : Nat} (hid : id < b.values.length)
    (hid' : id' < b.values.length)
    (hv : Visible (b.displayText id)) (he : b.displayText id = b.displayText id') : id = id' := by
  obtain ⟨next, numbers⟩ := b.nameOperations_numbers b.operations 0
  rcases h.displayed hid with ⟨-, hl, -⟩ | ⟨-, -, -, ⟨-, -, hm, hl⟩ | ⟨-, hidden, -⟩⟩
  · rcases h.displayed hid' with ⟨-, hl', -⟩ | ⟨-, -, -, ⟨-, -, -, hl'⟩ | ⟨-, hidden', -⟩⟩
    · exact Option.some.inj (hl.symm.trans (he ▸ hl'))
    · rw [he, hl'] at hl; cases hl
    · exact absurd (he ▸ hv) hidden'
  · rcases h.displayed hid' with ⟨-, hl', -⟩ | ⟨-, -, -, ⟨-, -, hm', -⟩ | ⟨-, hidden', -⟩⟩
    · rw [he, hl'] at hl; cases hl
    · exact congrArg Prod.fst (List.inj_on_of_nodup_map numbers.nodup hm hm' he)
    · exact absurd (he ▸ hv) hidden'
  · exact absurd hv hidden

theorem visible_operand (h : b.Orderly r) {op : Operation} {id : Nat} (hop : op ∈ b.operations)
    (hid : id ∈ op.operands) :
    Visible (b.displayText id) := by
  have hlt := h.operand_lt hop hid
  rcases h.displayed hlt with ⟨hn, -, -⟩ | ⟨hout, ha, -, ⟨-, hn, -⟩ | ⟨hm, -⟩⟩
  · exact hn.visible
  · exact hn.visible
  · exfalso
    have part := h.parts.mem_iff.mpr (List.mem_range.mpr hlt)
    obtain ⟨op', hop', hid'⟩ := List.mem_flatMap.mp ((List.mem_append.mp part).resolve_left hout)
    refine hm ((h.mem_numberedResults hop' hid').mpr ⟨ha, List.all_eq_false.mpr ⟨id, hid', fun hidle => ?_⟩⟩)
    rw [isIdle_eq hlt, ha, Bool.true_and, h.unused id hlt] at hidle
    exact hidle op hop hid

theorem visible_result (h : b.Orderly r) {op : Operation} {id : Nat} (hop : op ∈ b.operations) (hid : id ∈ op.results) :
    Visible (b.displayText id) ↔ op.results.all b.isIdle = false := by
  have hlt := h.result_lt hop hid
  have numbered := h.mem_numberedResults hop hid
  rcases h.displayed hlt with ⟨hn, -, ha⟩ | ⟨-, ha, -, ⟨hm, hn, -⟩ | ⟨hm, hidden, -⟩⟩
  · refine iff_of_true hn.visible (List.all_eq_false.mpr ⟨id, hid, ?_⟩)
    rw [isIdle_eq hlt, ha]
    exact nofun
  · exact iff_of_true hn.visible (numbered.mp hm).2
  · exact iff_of_false hidden fun hall => hm (numbered.mpr ⟨ha, hall⟩)

theorem displays (h : b.Orderly r) : b.Displays where
  text _ hid := h.shown_text hid
  named id hid := by
    rcases h.displayed hid with ⟨hn, -, -⟩ | ⟨-, -, -, ⟨-, hn, -⟩ | ⟨-, hidden, -⟩⟩
    · exact .inl hn
    · exact .inl hn
    · exact .inr hidden
  distinct _ hid _ hid' := h.displayText_distinct hid hid'
  own id n hl := by
    rcases h.displayed (lookup_lt h.wellScoped hl) with ⟨-, hl', -⟩ | ⟨-, -, hidden, -⟩
    · have := (nameOf_of_lookup h.wellScoped hl').symm.trans (nameOf_of_lookup h.wellScoped hl)
      exact Label.text.inj this
    · exact absurd hl (hidden n)
  free id hid hl := by
    rcases h.displayed hid with ⟨-, hl', -⟩ | ⟨-, -, -, ⟨-, -, -, free⟩ | ⟨-, -, free⟩⟩
    · exact absurd hl' (hl _)
    · exact free
    · exact free
  input id hid := by
    rcases h.displayed (h.input_lt hid) with ⟨hn, -, -⟩ | ⟨hout, -⟩
    · exact hn.visible
    · exact absurd hid hout
  operand _ hop _ hid := h.visible_operand hop hid
  uniform op hop := by
    cases hall : op.results.all b.isIdle with
    | true =>
      refine .inr fun id hid hv => ?_
      rw [(h.visible_result hop hid).mp hv] at hall
      cases hall
    | false => exact .inl fun id hid => (h.visible_result hop hid).mpr hall

end Orderly

end Block

end GateAsm
