import GateAsm.Proofs.Reached
import GateAsm.Proofs.Serial.Records
import GateAsm.Proofs.Serial.Values

/-!
# Blocks that are reloaded

A block grows by inputs, by instructions that are read and by instructions that are built, all with success. What it
keeps then comes back from its serialized form, and so does the block as a whole: `Wire.loadWith_dumpBlock`.
-/

namespace GateAsm

/-! ## Blocks that grow -/

/-- The tags that the request gives come back from their serialized form, and each is given once. -/
structure BuildRequest.Storable (q : BuildRequest) : Prop where
  number : ∀ v x, q.angle = .attr v → v.toReal = .ok x → x.bits < 2 ^ 64
  keys : (q.attrs.map (·.1)).Nodup
  tags : ∀ e ∈ q.attrs, e.2.Portable

structure CallRequest.Storable (q : CallRequest) : Prop where
  callee : ∃ n, q.callee = .text n
  count : ∀ n, q.count.toInt = .ok n → FewDigits n
  keys : (q.attrs.map (·.1)).Nodup
  tags : ∀ e ∈ q.attrs, e.2.Portable

/-- The block comes from the empty one by adding inputs, by reading instructions or modules that stand in a text,
and by building instructions on values in scope, each with success. -/
inductive Block.Grown : Block → Prop
  | empty : Grown .empty
  | input {b b' : Block} {name : Option Label} {type : Attr} {id : Nat} (hb : Grown b)
      (h : b.addInput name type = .ok (id, b')) : Grown b'
  | instruction {s t : ParserState} {env : ParserEnv} {expected : Option Kind} {text : String} {tokens : TokenStream}
      {n : Nat} (hb : Grown s.block) (hk : ∀ x k, KindFor env.registry expected x k → k.Storable)
      (htext : TokenStream.ofText text = .ok tokens) (hs : s.rest <:+ tokens.tokens)
      (h : Parser.Yields (Parser.instruction env expected) s n t) : Grown t.block
  | module {s t : ParserState} {env : ParserEnv} {text : String} {tokens : TokenStream}
      (hb : Grown s.block) (hk : ∀ x k, env.registry.kind? x = some k → k.Storable)
      (htext : TokenStream.ofText text = .ok tokens) (hs : s.rest <:+ tokens.tokens)
      (h : Parser.Yields (Parser.module env) s () t) : Grown t.block
  | built {b b' : Block} {k : Kind} {q : BuildRequest} {n : Nat} (hb : Grown b) (hk : k.Storable) (hon : q.On b)
      (hq : q.Storable) (h : k.build b q = (.ok n, b')) : Grown b'
  | called {b b' : Block} {k : Kind} {q : CallRequest} {n : Nat} (hb : Grown b) (hk : k.Storable) (hon : q.On b)
      (hq : q.Storable) (h : k.buildCall b q = (.ok n, b')) : Grown b'

namespace Block

/-- What a block that grows keeps: its operations come back, and names and types of values are all that is left to ask
for. -/
structure Storable (b : Block) : Prop where
  useDef : b.UseDef []
  whole : b.Whole
  operations : ∀ op ∈ b.operations, op.Portable

section
variable {b b' : Block} {s : OperationState}

theorem Storable.empty : Block.empty.Storable := ⟨.empty, rfl, nofun⟩

theorem Storable.addInput (h : b.Storable) {name : Option Label} {type : Attr} {id : Nat}
    (hadd : b.addInput name type = .ok (id, b')) : b'.Storable := by
  have useDef := h.useDef.addInput hadd
  unfold Block.addInput at hadd
  cases hv : b.addValue type name with
  | error e => rw [hv] at hadd; cases hadd
  | ok x =>
    obtain ⟨i, d⟩ := x
    rw [hv] at hadd
    cases hadd
    obtain ⟨-, l, adds⟩ := addValue_ok hv
    refine ⟨useDef, ?_, fun op hop => h.operations op (adds.operations ▸ hop)⟩
    have whole : b.values.length = b.order.length := h.whole
    show d.values.length = (d.inputs ++ [_] ++ d.results).length
    rw [adds.length, whole, order, adds.inputs, results, results, adds.operations]
    simp only [List.length_append, List.length_singleton]
    omega

theorem Storable.mentionAll {uses : List (String × Ty)} (h : b.Storable) (hv : ∀ u ∈ uses, Visible u.1) :
    (b.mentionAll uses).Storable :=
  mentionAll_induction h fun _ hc u hu hl => hc.addInput (addInput_text ((lookup_eq (hv u hu)).symm.trans hl))

theorem Whole.creates {labels : List (Option Label)} {operands : List Nat} (h : b.Whole)
    (hc : b.Creates s labels operands b') : b'.Whole := by
  obtain ⟨name, last⟩ := hc.operations
  have whole : b.values.length = b.order.length := h
  show b'.values.length = (b'.inputs ++ b'.results).length
  rw [hc.length, whole, hc.inputs, order, results, results, last, List.flatMap_append]
  simp only [List.length_append, List.flatMap_singleton, List.length_range']
  omega

theorem Storable.createOperation {names : Option (List (Option Label))} {n : Nat} (h : b.Storable) (hu : b'.UseDef [])
    (hc : b.createOperation s names = (.ok n, b'))
    (hs : ∀ operands results name, (Operation.mk s.opcode operands results s.attrs name).Portable) : b'.Storable := by
  obtain ⟨-, operands, hc⟩ := createOperation_ok hc
  refine ⟨hu, h.whole.creates hc, fun op hop => ?_⟩
  obtain ⟨name, last⟩ := hc.operations
  rw [last, List.mem_append, List.mem_singleton] at hop
  rcases hop with hop | rfl
  · exact h.operations op hop
  · exact hs _ _ _

end

end Block

/-! ## Instructions that are read -/

theorem Line.Runs.storable {l : Line} {c : TypeContext} {b b' : Block} (hrun : l.Runs c b b') (hk : l.kind.Storable)
    (hm : l.statement.Lawful l.kind) (hv : ∀ n ∈ l.statement.content.physical, Block.Visible n)
    (hhead : l.statement.content.head.Portable) (htags : ∀ e ∈ l.statement.tags, e.2.Portable)
    (h : b.Storable) : b'.Storable := by
  have front : (l.front c b).Storable := h.mentionAll fun u hu => hv _ (List.of_mem_zip hu).1
  obtain ⟨n, hc⟩ := hrun.created
  refine front.createOperation (hrun.useDef hm hv h.useDef) hc fun _ _ _ => ?_
  exact Operation.portable_of_record hk hm.fits hhead hm.tags.nodup (fun key hkey => (hm.tags.free key hkey).1) htags
    (.refl _)

namespace Parser

variable {env : ParserEnv} {expected : Option Kind} {s t : ParserState}

theorem storable_instruction {n : Nat} (hk : ∀ x k, KindFor env.registry expected x k → k.Storable)
    (hs : ∀ w ∈ s.rest.map Token.word, w.Spelled) (h : s.block.Storable)
    (hr : Yields (instruction env expected) s n t) :
    t.block.Storable ∧ ∀ w ∈ t.rest.map Token.word, w.Spelled := by
  have visible := Reading.visible_of_spelled hs
  obtain ⟨x, l, hsplit, -, hx, hrun, -, -⟩ :=
    instruction_sound (fun x k hxk => (hk x k hxk).valid) h.useDef.wellScoped visible hr
  have physical : ∀ n ∈ l.statement.content.physical, Block.Visible n := fun n hn =>
    visible.of_splits hsplit (List.mem_append_right _ (List.mem_cons_of_mem _ (hx.body.written hn)))
  have spelled : ∀ w ∈ x.body.words, w.Spelled := fun w hw =>
    hs w (hsplit.words ▸ List.mem_append_left _ (List.mem_append_right _ (List.mem_cons_of_mem _ hw)))
  obtain ⟨head, tags, -⟩ := hx.body.writes spelled
  refine ⟨hrun.storable (hk _ _ hx.kind) hx.body.lawful physical head.portable (fun e he => ?_) h, fun w hw => hs w ?_⟩
  · exact Attr.portable_of_writable (tags e he).2
  · exact (hsplit.sublist.map _).subset hw

theorem storable_firstInstructions {n : Nat} (hk : ∀ x k, env.registry.kind? x = some k → k.Storable)
    (hs : ∀ w ∈ s.rest.map Token.word, w.Spelled) (h : s.block.Storable)
    (hr : Yields (firstInstructions env n) s () t) :
    t.block.Storable := by
  induction n generalizing s with
  | zero =>
    obtain ⟨-, rfl⟩ := yields_pure.mp hr
    exact h
  | succ n ih =>
    rw [firstInstructions, yields_bind] at hr
    obtain ⟨m, u, hone, hr⟩ := hr
    obtain ⟨hu, hsu⟩ := storable_instruction (show ∀ x k, KindFor env.registry none x k → k.Storable from hk) hs h hone
    exact ih hsu hu hr

end Parser

/-! ## Instructions that are built -/

namespace Kind

variable {k : Kind} {b b' : Block} {n : Nat}

theorem storable_build {q : BuildRequest} (h : b.Storable) (hk : k.Storable) (hon : q.On b) (hq : q.Storable)
    (hb : k.build b q = (.ok n, b')) : b'.Storable := by
  have useDef := useDef_build h.useDef hon hb
  obtain ⟨s, hs, hc⟩ := append_ok hb
  obtain ⟨a, fs, fits, -, -, hliteral, -, free, rfl⟩ := buildState_ok hk.valid hs
  have head : (Head.generic a).Portable := by
    intro x hx
    obtain ⟨finite, v, hv, hreal⟩ := hliteral x hx
    exact ⟨finite, hq.number v x hv hreal⟩
  refine h.createOperation useDef hc fun _ _ _ => ?_
  exact Operation.portable_of_record hk fits head hq.keys free hq.tags List.perm_append_comm

theorem storable_buildCall {q : CallRequest} (h : b.Storable) (hk : k.Storable) (hon : q.On b) (hq : q.Storable)
    (hb : k.buildCall b q = (.ok n, b')) : b'.Storable := by
  have useDef := useDef_buildCall h.useDef hon hb
  obtain ⟨s, hs, hc⟩ := append_ok hb
  obtain ⟨-, operands, hcreates⟩ := Block.createOperation_ok hc
  obtain ⟨m, fs, hcall, hm, -, legal, few, short, -, free, -, rfl⟩ := callState_ok hs hcreates.present
  obtain ⟨callee, hcallee⟩ := hq.callee
  have fits : (Content.mk (.call callee m) fs).Fits k := ⟨hcall, legal, few, short⟩
  have head : (Head.call callee m : Head Nat).Portable := hq.count m hm
  refine h.createOperation useDef hc fun _ _ _ => ?_
  have tags : (q.attrs ++ callTags q.callee m fs).Perm ((Content.mk (.call callee m) fs).structural k ++ q.attrs) := by
    rw [hcallee, structural_call]
    exact List.perm_append_comm
  exact Operation.portable_of_record hk fits head hq.keys free hq.tags tags

end Kind

/-! ## Blocks as a whole -/

namespace Block.Grown

variable {b : Block}

theorem storable (h : b.Grown) : b.Storable := by
  induction h with
  | empty => exact .empty
  | input _ h ih => exact ih.addInput h
  | instruction _ hk htext hs h ih =>
    exact (Parser.storable_instruction hk
      (fun w hw => (lexes_of_ofText htext).2 w ((hs.sublist.map _).subset hw)) ih h).1
  | module _ hk htext hs h ih =>
    obtain ⟨n, hn⟩ := Parser.instructions_ok (Parser.yields_get_bind.mp h)
    exact Parser.storable_firstInstructions hk (fun w hw =>
      (lexes_of_ofText htext).2 w ((hs.sublist.map _).subset hw)) ih hn
  | built _ hk hon hq h ih => exact Kind.storable_build ih hk hon hq h
  | called _ hk hon hq h ih => exact Kind.storable_buildCall ih hk hon hq h

/-- A block that has grown is portable if its names are texts and its types have integers for parameters. -/
theorem portable (h : b.Grown) (hn : ∀ id, b.InScope id → ∃ n, b.nameOf id = .text n)
    (ht : ∀ id, b.InScope id → ∃ t : Ty, b.typeOf id = .type t ∧ t.Readable) : b.Portable where
  named := ⟨h.storable.useDef, hn⟩
  whole := h.storable.whole
  types id hid := by
    obtain ⟨t, htype, readable⟩ := ht id hid
    rw [htype]
    exact readable
  operations := h.storable.operations

end Block.Grown

namespace Wire

/-- The bytes are those of the text, or they are compressed and decompress to them. -/
def Holds (bs : ByteArray) (compressed : Bool) (text : String) : Prop :=
  if compressed then Gzip.decompress bs = .ok text.toUTF8 else bs = text.toUTF8

theorem Holds.unpacked {bs : ByteArray} {compressed : Bool} {text : String} (h : Holds bs compressed text) :
    (if compressed then (Gzip.decompress bs).mapError LoadFault.compression else .ok bs) = .ok text.toUTF8 := by
  unfold Holds at h
  cases compressed with
  | false => exact congrArg Except.ok h
  | true =>
    have unpacked : Gzip.decompress bs = .ok text.toUTF8 := h
    rw [if_pos rfl, unpacked]
    rfl

/-- **Serialization loses nothing.** A block that has grown from the empty one is written in every layout, and the
bytes of the text, compressed or not, are read as a block with the same inputs, operations and values, which is
formatted in the same way. -/
theorem loadWith_dumpBlock {b : Block} (hb : b.Grown) (hn : ∀ id, b.InScope id → ∃ n, b.nameOf id = .text n)
    (ht : ∀ id, b.InScope id → ∃ t : Ty, b.typeOf id = .type t ∧ t.Readable) (l : Json.Layout) :
    ∃ text, dumpBlock l b = .ok text ∧ ∀ (bs : ByteArray) (compressed : Bool) (c : TypeContext),
      Holds bs compressed text → c.Plain →
      ∃ d e, loadWith readBlockValue bs compressed c = (.ok d, e) ∧ b.Restored d := by
  obtain ⟨j, hj, writable, reads⟩ := block_restored (hb.portable hn ht)
  refine ⟨Json.write l j, by rw [dumpBlock, hj]; exact if_pos writable.isShowable, fun bs compressed c hbs hc => ?_⟩
  obtain ⟨d, e, hload, restored⟩ := reads c hc
  have answer : readBlockValue j c = (.ok d, e) := hload
  refine ⟨d, e, ?_, restored⟩
  unfold loadWith
  rw [hbs.unpacked]
  simp only [jsonOfBytes_toUTF8 writable l, answer]
  rfl

def emptyText : String := "\x7b\"inputs\":[],\"operations\":[],\"_kind\":\"quantir.Block\"\x7d"

def packedEmpty : ByteArray :=
  ⟨#[31, 139, 8, 0, 0, 0, 0, 0, 2, 3, 171, 86, 202, 204, 43, 40, 45, 41, 86, 178, 138, 142, 213, 81, 202, 47, 72, 45,
    74, 44, 201, 204, 207, 131, 242, 227, 179, 51, 243, 82, 148, 172, 148, 10, 75, 19, 243, 74, 50, 139, 244, 156,
    114, 242, 147, 179, 149, 106, 1, 236, 67, 237, 196, 53, 0, 0, 0]⟩

theorem holds_packedEmpty : Holds packedEmpty true emptyText := by
  have unpacked : (Gzip.decompress packedEmpty).toOption = some emptyText.toUTF8 := by decide +kernel
  show Gzip.decompress packedEmpty = _
  cases h : Gzip.decompress packedEmpty with
  | error f => rw [h] at unpacked; cases unpacked
  | ok bs =>
    rw [h] at unpacked
    exact congrArg Except.ok (Option.some.inj unpacked)

def flipRequest : BuildRequest :=
  ⟨[some 0], [], .attr .none, [("note", .dict [(.str "a", .list [.bool true, .int (-3)])])], [.type .qubit], none⟩

def flipped : Block := (Parser.flip.build (Block.empty.withInput "%q" .qubit) flipRequest).2

/-- The block with the flip is read from its text, and the empty one from its compressed form. -/
theorem loadWith_dumpBlock_flipped : flipped.operations.length = 1 ∧
    (∃ text, dumpBlock (.indented 2) flipped = .ok text ∧
      ∃ d e, loadWith readBlockValue text.toUTF8 false .default = (.ok d, e) ∧ flipped.Restored d) ∧
    ∃ d e, loadWith readBlockValue packedEmpty true .default = (.ok d, e) ∧ Block.empty.Restored d := by
  have qubit : Ty.qubit.Readable := ⟨rfl, trivial, nofun, nofun⟩
  have start : (Block.empty.withInput "%q" .qubit).Grown := .input .empty (Block.addInput_text rfl)
  obtain ⟨n, hn⟩ := exists_answer (x := Parser.flip.build (Block.empty.withInput "%q" .qubit) flipRequest)
    (by decide +kernel)
  have grown : flipped.Grown := by
    refine .built start ⟨by decide, by decide⟩ ⟨?_, fun e he => absurd he List.not_mem_nil, fun id h => by cases h⟩
      ⟨?_, by decide, ?_⟩ hn
    · intro id hid
      obtain rfl : id = 0 := by simpa [flipRequest] using hid
      exact List.mem_singleton_self 0
    · intro v x hv hx
      cases hv
      cases hx
    · have small : FewDigits (-3) := fewDigits_of_int64 ⟨by decide, by decide⟩
      exact List.forall_mem_singleton.mpr ⟨⟨"a", rfl⟩, nofun, ⟨trivial, small, trivial⟩, trivial⟩
  have scope : ∀ id, flipped.InScope id → id = 0 ∨ id = 1 := by
    intro id hid
    have : flipped.scope.map (·.2) = [0, 1] := by decide +kernel
    rw [Block.InScope, this] at hid
    simpa using hid
  have names : ∀ id, flipped.InScope id → ∃ n, flipped.nameOf id = .text n := by
    intro id hid
    rcases scope id hid with rfl | rfl
    · exact ⟨"%q", rfl⟩
    · exact ⟨"%#0", rfl⟩
  have types : ∀ id, flipped.InScope id → ∃ t : Ty, flipped.typeOf id = .type t ∧ t.Readable := by
    intro id hid
    rcases scope id hid with rfl | rfl
    · exact ⟨.qubit, rfl, qubit⟩
    · exact ⟨.qubit, rfl, qubit⟩
  refine ⟨by decide +kernel, ?_, ?_⟩
  · obtain ⟨text, htext, reads⟩ := loadWith_dumpBlock grown names types (.indented 2)
    exact ⟨text, htext, reads _ false _ rfl TypeContext.plain_default⟩
  · obtain ⟨text, htext, reads⟩ := loadWith_dumpBlock .empty nofun nofun .compact
    have same : dumpBlock .compact .empty = .ok emptyText := by decide +kernel
    cases htext.symm.trans same
    exact reads packedEmpty true _ holds_packedEmpty TypeContext.plain_default

end Wire

end GateAsm
