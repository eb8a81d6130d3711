import GateAsm.Proofs.Loading
import Mathlib.Algebra.BigOperators.Group.List.Lemmas
import Mathlib.Algebra.BigOperators.Ring.List
import Mathlib.Algebra.Ring.Nat

/-!
# Arrays through their bytes

An array is serialized by the name of its element type, its shape and its bytes in base 64. Each of the three is
read back: the text of bytes (`Base64.decode_encode`), the cells from groups of bytes, and the shape as one that
the cells fill.
-/

namespace GateAsm

/-! ## Base 64 -/

namespace Base64

variable {n : Nat} (cs : List Char)

theorem value?_digit : ∀ n < 64, value? (digit n) = some n ∧ digit n ≠ '=' := by decide

theorem digit_ascii (n : Nat) : (digit n).toNat < 0x80 := by
  have small : ∀ n < 64, (digit n).toNat < 0x80 := by decide
  by_cases h : n < 64
  · exact small n h
  · have : digit n = '/' := by
      unfold digit
      rw [if_neg (by omega), if_neg (by omega), if_neg (by omega), if_neg (by omega)]
    rw [this]
    decide

theorem encode_ascii (bs : List Nat) : ∀ c ∈ encode bs, c.toNat < 0x80 := by
  induction bs using encode.induct with
  | case1 => simp [encode]
  | case2 a => simp [encode, digit_ascii]
  | case3 a b => simp [encode, digit_ascii]
  | case4 a b c rest ih => simpa [encode, digit_ascii] using ih

section
variable (h : n < 64) (left pads : Nat)
include h

theorem decodeFrom_first : decodeFrom 0 left pads (digit n :: cs) = decodeFrom 1 n 0 cs := by
  simp [decodeFrom, value?_digit n h]

theorem decodeFrom_second :
    decodeFrom 1 left pads (digit n :: cs) = (decodeFrom 2 (n % 16) 0 cs).map ((left * 4 + n / 16) :: ·) := by
  simp [decodeFrom, value?_digit n h]

theorem decodeFrom_third :
    decodeFrom 2 left pads (digit n :: cs) = (decodeFrom 3 (n % 4) 0 cs).map ((left * 16 + n / 4) :: ·) := by
  simp [decodeFrom, value?_digit n h]

theorem decodeFrom_fourth :
    decodeFrom 3 left pads (digit n :: cs) = (decodeFrom 0 0 0 cs).map ((left * 64 + n) :: ·) := by
  simp [decodeFrom, value?_digit n h]

end

theorem decode_encode {bs : List Nat} (h : ∀ b ∈ bs, b < 256) : decode (encode bs) = some bs := by
  unfold decode
  induction bs using encode.induct with
  | case1 => rfl
  | case2 a =>
    have ha : a < 256 := h a List.mem_cons_self
    rw [encode, decodeFrom_first _ (by omega), decodeFrom_second _ (by omega)]
    have first : a / 4 * 4 + a % 4 * 16 / 16 = a := by omega
    rw [first]
    rfl
  | case3 a b =>
    simp only [List.forall_mem_cons] at h
    rw [encode, decodeFrom_first _ (by omega), decodeFrom_second _ (by omega), decodeFrom_third _ (by omega)]
    have first : a / 4 * 4 + (a % 4 * 16 + b / 16) / 16 = a := by omega
    have second : (a % 4 * 16 + b / 16) % 16 * 16 + b % 16 * 4 / 4 = b := by omega
    rw [first, second]
    rfl
  | case4 a b c rest ih =>
    simp only [List.forall_mem_cons] at h
    rw [encode, decodeFrom_first _ (by omega), decodeFrom_second _ (by omega), decodeFrom_third _ (by omega),
      decodeFrom_fourth _ (by omega), ih h.2.2.2]
    have first : a / 4 * 4 + (a % 4 * 16 + b / 16) / 16 = a := by omega
    have second : (a % 4 * 16 + b / 16) % 16 * 16 + (b % 16 * 4 + c / 64) / 4 = b := by omega
    have third : (b % 16 * 4 + c / 64) % 4 * 64 + c % 64 = c := by omega
    simp only [Option.map_some, first, second, third]

end Base64

/-! ## Cells -/

namespace Element

theorem length_bytes (n bits : Nat) : (bytes n bits).length = n := by
  induction n generalizing bits with
  | zero => rfl
  | succ n ih => rw [bytes, List.length_cons, ih]

theorem lt_of_mem_bytes {n bits : Nat} : ∀ b ∈ bytes n bits, b < 256 := by
  induction n generalizing bits with
  | zero => exact nofun
  | succ n ih => exact List.forall_mem_cons.mpr ⟨Nat.mod_lt _ (by decide), ih⟩

theorem ofBytes_bytes {n bits : Nat} (h : bits < 256 ^ n) : ofBytes (bytes n bits) = bits := by
  induction n generalizing bits with
  | zero =>
    obtain rfl : bits = 0 := by simpa using h
    rfl
  | succ n ih =>
    rw [Nat.pow_succ] at h
    rw [bytes, ofBytes, ih (Nat.div_lt_of_lt_mul (by omega))]
    omega

def standard : List Element :=
  [boolean, signed 1, signed 2, signed 4, signed 8, unsigned 1, unsigned 2, unsigned 4, unsigned 8, half,
    single, double]

theorem size_pos : ∀ e ∈ standard, 0 < e.size := by decide

theorem ofName_name : ∀ e ∈ standard, ofName e.name = .ok (e, false) := by decide +kernel

theorem ofName_code : ∀ e ∈ standard, e.size ≠ 1 → ofName (">" ++ e.code) = .ok (e, true) := by decide +kernel

end Element

/-! ## Arrays -/

namespace NumArray

open Element

structure WellFormed (a : NumArray) : Prop where
  element : a.element ∈ standard
  order : a.highFirst = true → a.element.size ≠ 1
  cells : ∀ bits ∈ a.cells, bits < 256 ^ a.element.size
  filled : a.shape.prod = a.cells.length
  rank : a.shape.length ≤ maxRank
  room : a.element.size * (a.shape.filter (· != 0)).prod ≤ maxBytes

variable {a : NumArray}

theorem WellFormed.ofName_typeName (h : a.WellFormed) : Element.ofName a.typeName = .ok (a.element, a.highFirst) := by
  unfold typeName
  cases ho : a.highFirst with
  | false => exact ofName_name _ h.element
  | true => exact ofName_code _ h.element (h.order ho)

theorem groups_flatten {size : Nat} (hs : 0 < size) {gs : List (List Nat)} (h : ∀ g ∈ gs, g.length = size) {fuel : Nat}
    (hf : gs.length ≤ fuel) : groups size fuel gs.flatten = some gs := by
  induction gs generalizing fuel with
  | nil => cases fuel <;> rfl
  | cons g gs ih =>
    cases fuel with
    | zero => cases hf
    | succ fuel =>
      obtain ⟨hg, hgs⟩ := List.forall_mem_cons.mp h
      have nonempty : g ≠ [] := by
        rintro rfl
        exact Nat.ne_of_lt hs hg
      have enough : ¬ (g ++ gs.flatten).length < size := by
        rw [List.length_append]
        omega
      rw [List.flatten_cons, groups, if_neg enough, List.take_left' hg, List.drop_left' hg,
        ih hgs (Nat.le_of_succ_le_succ hf)]
      · rfl
      · exact fun h => nonempty (List.append_eq_nil_iff.mp h).1

theorem product?_eq {done : Nat} {ns : List Nat} (h : done * (ns.filter (· != 0)).prod ≤ maxBytes) :
    product? done ns = some (done * ns.prod) := by
  induction ns generalizing done with
  | nil => simp [product?]
  | cons n ns ih =>
    by_cases hn : n = 0
    · subst hn
      rw [product?, Nat.mul_zero, if_neg (Nat.not_lt_zero _), ih (by simp)]
      simp
    · rw [List.filter_cons_of_pos (by simpa using hn), List.prod_cons, ← Nat.mul_assoc] at h
      have pos : 0 < (ns.filter (· != 0)).prod := Nat.pos_of_ne_zero (List.prod_ne_zero (by simp))
      have fits : ¬ maxBytes < done * n := Nat.not_lt.mpr (Nat.le_trans (Nat.le_mul_of_pos_right _ pos) h)
      rw [product?, if_neg fits, ih h, List.prod_cons, Nat.mul_assoc]

def cellBytes (a : NumArray) (bits : Nat) : List Nat :=
  if a.highFirst then (Element.bytes a.element.size bits).reverse else Element.bytes a.element.size bits

theorem length_cellBytes (bits : Nat) : (a.cellBytes bits).length = a.element.size := by
  unfold cellBytes
  split
  · rw [List.length_reverse, length_bytes]
  · rw [length_bytes]

theorem WellFormed.ofBytes_cellBytes (h : a.WellFormed) {bits : Nat} (hb : bits ∈ a.cells) :
    Element.ofBytes (if a.highFirst then (a.cellBytes bits).reverse else a.cellBytes bits) = bits := by
  unfold cellBytes
  split
  · rw [List.reverse_reverse, ofBytes_bytes (h.cells bits hb)]
  · rw [ofBytes_bytes (h.cells bits hb)]

theorem bytes_eq : a.bytes = (a.cells.map a.cellBytes).flatten := by
  rw [bytes, List.flatMap_def]
  rfl

theorem lt_of_mem_bytes : ∀ b ∈ a.bytes, b < 256 := by
  intro b hb
  obtain ⟨bits, -, hb⟩ := List.mem_flatMap.mp hb
  dsimp only at hb
  split at hb
  · exact Element.lt_of_mem_bytes b (List.mem_reverse.mp hb)
  · exact Element.lt_of_mem_bytes b hb

theorem length_bytes : a.bytes.length = a.element.size * a.cells.length := by
  rw [bytes_eq, List.length_flatten, List.map_map, Nat.mul_comm]
  have : List.length ∘ a.cellBytes = fun _ => a.element.size := funext length_cellBytes
  rw [this, List.map_const', List.sum_replicate_nat]

theorem WellFormed.groups_bytes (h : a.WellFormed) :
    groups a.element.size a.bytes.length a.bytes = some (a.cells.map a.cellBytes) := by
  have pos := size_pos _ h.element
  have fuel : (a.cells.map a.cellBytes).length ≤ a.bytes.length := by
    rw [List.length_map, length_bytes]
    exact Nat.le_mul_of_pos_left _ pos
  have each : ∀ g ∈ a.cells.map a.cellBytes, g.length = a.element.size := by
    intro g hg
    obtain ⟨bits, -, rfl⟩ := List.mem_map.mp hg
    exact length_cellBytes bits
  rw [bytes_eq] at fuel ⊢
  exact groups_flatten pos each fuel

theorem WellFormed.fitShape?_shape (h : a.WellFormed) :
    fitShape? a.cells.length (a.shape.map Int.ofNat) = some a.shape := by
  have closed : (a.shape.map Int.ofNat).filter (0 ≤ ·) = a.shape.map Int.ofNat := by
    simp
  have none_open : (a.shape.map Int.ofNat).filter (· < 0) = [] := by
    simp
  have back : (a.shape.map Int.ofNat).map Int.toNat = a.shape := by
    rw [List.map_map]
    exact List.map_id _
  have bound : 1 * (a.shape.filter (· != 0)).prod ≤ maxBytes := by
    rw [Nat.one_mul]
    exact Nat.le_trans (Nat.le_mul_of_pos_left _ (size_pos _ h.element)) h.room
  simp [fitShape?, closed, none_open, back, product?_eq bound, h.filled]

/-- **An array is built again from its bytes.** -/
theorem WellFormed.ofBuffer_bytes (h : a.WellFormed) :
    ofBuffer a.element a.highFirst (a.shape.map Int.ofNat) a.bytes = some a := by
  have cells : (a.cells.map a.cellBytes).map
      (fun bs => Element.ofBytes (if a.highFirst then bs.reverse else bs)) = a.cells := by
    rw [List.map_map]
    exact (List.map_congr_left fun bits hb => h.ofBytes_cellBytes hb).trans (List.map_id _)
  have room : product? a.element.size (a.shape.filter (· != 0)) = some _ :=
    product?_eq (by simpa only [List.filter_filter, Bool.and_self] using h.room)
  simp [ofBuffer, h.groups_bytes, ofCells, cells, h.fitShape?_shape, room, Nat.not_lt.mpr h.rank]

end NumArray

/-! ## Serialized arrays -/

namespace Wire

variable {a : NumArray}

theorem element_typeName (h : a.WellFormed) : element (.str a.typeName) = pure (some (a.element, a.highFirst)) := by
  simp only [element, h.ofName_typeName]

theorem bytes_encode (a : NumArray) : bytes (.str (String.ofList (Base64.encode a.bytes))) = pure a.bytes := by
  have ascii : (Base64.encode a.bytes).all (fun c => c.toNat < 0x80) = true := by
    rw [List.all_eq_true]
    exact fun c hc => decide_eq_true (Base64.encode_ascii _ c hc)
  simp [bytes, ascii, Base64.decode_encode NumArray.lt_of_mem_bytes]

theorem extent_le (h : a.WellFormed) : ∀ n ∈ a.shape, n ≤ NumArray.maxBytes := by
  intro n hn
  by_cases hzero : n = 0
  · rw [hzero]
    exact Nat.zero_le _
  · have mem : n ∈ a.shape.filter (· != 0) := List.mem_filter.mpr ⟨hn, by simpa using hzero⟩
    have pos : 0 < (a.shape.filter (· != 0)).prod := Nat.pos_of_ne_zero (List.prod_ne_zero (by simp))
    have := Nat.le_of_dvd pos (List.dvd_prod mem)
    exact Nat.le_trans this (Nat.le_trans (Nat.le_mul_of_pos_left _ (Element.size_pos _ h.element)) h.room)

theorem int64_extent {n : Nat} (h : n ≤ NumArray.maxBytes) : InInt64 n := by
  have : n ≤ 2 ^ 63 - 1 := h
  unfold InInt64 int64Min int64Max
  omega

theorem extents_shape {ns : List Nat} (h : ∀ n ∈ ns, n ≤ NumArray.maxBytes) :
    (ns.map fun n => Json.int (n : Nat)).mapM extent = pure (ns.map Int.ofNat) := by
  induction ns with
  | nil => rfl
  | cons n ns ih =>
    obtain ⟨hn, hns⟩ := List.forall_mem_cons.mp h
    simp [extent, int64_extent hn, ih hns]

/-- **A serialized array is read back**, in any context. -/
theorem readArray_array (h : a.WellFormed) : readArray [(kindField, .str "_ndarray"), ("dtype", .str a.typeName),
    ("shape", .arr (a.shape.map fun n => Json.int (n : Nat))),
    ("data", .str (String.ofList (Base64.encode a.bytes)))] = pure (.array a) := by
  have whole : a.bytes.length % a.element.size = 0 := by rw [NumArray.length_bytes, Nat.mul_mod_right]
  simp [readArray, field, Json.lookup, kindField, element_typeName h, iterate, bytes_encode, ofShape, whole,
    Nat.not_lt.mpr h.rank, extents_shape (extent_le h), h.ofBuffer_bytes]

end Wire

end GateAsm
