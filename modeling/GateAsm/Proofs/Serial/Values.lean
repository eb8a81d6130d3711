import GateAsm.Proofs.LoadingTypes
import GateAsm.Proofs.Serial.Attributes
import GateAsm.Wire.Bytes

/-!
# Values through the wire format

A value that the serialized form is for is written as ASCII text in every layout, and its bytes are read as the same
value, whatever the context (`Wire.loads_dumps`). The text therefore tells values apart: two that have one text are
the same, up to NaNs and to the way the parameters of types are given.
-/

namespace GateAsm

/-- The values are of one kind with the same parts in the same order, at every position. One NaN may stand for another,
and a type for one with equal parameters. -/
def Attr.Alike (a b : Attr) : Prop := a.settled = b.settled

namespace Wire

theorem jsonOfBytes_toUTF8 {j : Json} (h : j.Writable) (l : Json.Layout) :
    jsonOfBytes (Json.write l j).toUTF8 = .ok j := by
  have text : String.fromUTF8? (Json.write l j).toUTF8 = some (Json.write l j) := by
    have valid : (Json.write l j).toUTF8.IsValidUTF8 := (Json.write l j).isValidUTF8
    rw [String.fromUTF8?, dif_pos valid]
    rfl
  rw [jsonOfBytes, text]
  show (Json.read (Json.write l j)).mapError _ = _
  rw [Json.read_write h]
  rfl

theorem written_eq {j : Json} {a : Attr} (h : Carries j.quiet a) (l : Json.Layout) :
    written l j = .ok (Json.write l j) :=
  if_pos ((Json.isShowable_quiet j).symm.trans h.writable.isShowable)

/-- A value is read from the bytes of its text in any context. -/
theorem loads_write {j : Json} {a : Attr} (h : Carries j.quiet a.quiet) (l : Json.Layout) (c : TypeContext) :
    ∃ b d, loads (Json.write l j).toUTF8 false c = (.ok b, d) ∧ b.Alike a ∧ c.Grows d ∧ Kept d b := by
  obtain ⟨b, d, hload, same, -⟩ := h.restores (j.quiet.depth + 1) c (Nat.lt_succ_self _)
  have answer : read j.quiet c = (.ok b, d) := hload
  have grown := grows_read j.quiet c
  rw [answer] at grown
  refine ⟨b, d, ?_, same.trans a.settled_quiet, grown, kept_read answer⟩
  rw [← Json.write_quiet, loads, loadWith]
  simp only [Bool.false_eq_true, if_false, jsonOfBytes_toUTF8 h.writable l, answer]
  rfl

/-- **Values come back from the wire format.** In every layout a value is written as ASCII text, whose bytes are read as
the same value in any context. The types in it are then those of the context, which keeps all that it had. A value
that has the same text, in whatever layout, is the same. -/
theorem loads_dumps {a : Attr} (h : a.Serializable) (l : Json.Layout) :
    ∃ text, dumps l a = .ok text ∧ Json.Ascii text.toList ∧
      (∀ c, ∃ b d, loads text.toUTF8 false c = (.ok b, d) ∧ b.Alike a ∧ c.Grows d ∧ Kept d b) ∧
      ∀ (a' : Attr) (l' : Json.Layout), a'.Serializable → dumps l' a' = .ok text → a'.Alike a := by
  obtain ⟨j, hj, -, carried⟩ := carries_attr a h
  have ascii : Json.Ascii (Json.write l j).toList := by
    rw [← Json.write_quiet, Json.write, String.toList_ofList]
    exact Json.ascii_chars l 0 _ carried.writable
  refine ⟨Json.write l j, by rw [dumps, hj]; exact written_eq carried l, ascii, loads_write carried l,
    fun a' l' h' htext => ?_⟩
  obtain ⟨j', hj', -, carried'⟩ := carries_attr a' h'
  rw [dumps, hj', show (Except.ok j').bind (written l') = _ from written_eq carried' l'] at htext
  -- both are read from the one text, and there is but one answer
  obtain ⟨b, d, hb, like, -⟩ := loads_write carried l .default
  obtain ⟨b', d', hb', like', -⟩ := loads_write carried' l' .default
  rw [Except.ok.inj htext, hb] at hb'
  obtain rfl : b = b' := Except.ok.inj (Prod.mk.inj hb').1
  exact like'.symm.trans like

def kindKeyed : Attr :=
  .dict [(.str "_kind", .tuple [.float ⟨Floating.Format.double.quietNaN + 1⟩, .bool true, .int 1]),
    (.str "v", .list [.type (.controlled .gate1 (some 2)), .type (.integer ⟨1, .bool⟩), .constant (-1), .dynamic])]

/-- The dictionary is written, and comes back with the quiet NaN and a type that the context had. -/
theorem loads_dumps_kindKeyed : kindKeyed.Serializable ∧ ∃ text, dumps (.indented 2) kindKeyed = .ok text ∧
    ∃ b d, loads text.toUTF8 false .default = (.ok b, d) ∧ b.settled =
      .dict [(.str "_kind", .tuple [.float ⟨Floating.Format.double.quietNaN⟩, .bool true, .int 1]),
        (.str "v", .list [.type (.controlled .gate1 (some 2)), .type (.integer (.ofNat 1)), .constant (-1),
          .dynamic])] := by
  have gate : (Ty.controlled .gate1 (some 2)).Readable :=
    ⟨rfl, by decide, nofun, fun n hn => Option.some.inj hn ▸ fewDigits_of_int64 (by decide)⟩
  have quiet : Floating.Format.double.quietNaN + 1 < 2 ^ 64 := by decide
  have serializable : kindKeyed.Serializable :=
    ⟨⟨_, rfl⟩, by simp, ⟨quiet, trivial, fewDigits_of_int64 (by decide), trivial⟩, ⟨_, rfl⟩, nofun,
      ⟨.inl gate, .inr rfl, show InInt64 (-1) by decide, trivial, trivial⟩, trivial⟩
  obtain ⟨text, written, -, loaded, -⟩ := loads_dumps serializable (.indented 2)
  obtain ⟨b, d, hb, like, -⟩ := loaded .default
  exact ⟨serializable, text, written, b, d, hb, like.trans rfl⟩

end Wire

end GateAsm
