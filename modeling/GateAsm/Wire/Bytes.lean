import GateAsm.Gzip.Member
import GateAsm.Json.Reader
import GateAsm.Wire.Read

/-!
# Serialized values as bytes

The wire format is the JSON text of the serialized form in UTF-8, which may be compressed.
-/

namespace GateAsm

inductive LoadFault
  | compression (f : Gzip.Fault)
  | notText
  | json (f : Json.ReadFault)
  | wire (f : WireFault)
  deriving DecidableEq, Repr

namespace Wire

def written (l : Json.Layout) (j : Json) : Except SerialFault String :=
  if j.isShowable then .ok (Json.write l j) else .error .integerTooLong

def dumps (l : Json.Layout) (a : Attr) : Except SerialFault String := (attr a).bind (written l)

def dumpBlock (l : Json.Layout) (b : Block) : Except SerialFault String := (block b).bind (written l)

def jsonOfBytes (bs : ByteArray) : Except LoadFault Json :=
  match String.fromUTF8? bs with
  | none => .error .notText
  | some s => (Json.read s).mapError .json

/-- Reads a serialized value with a reader, the context being kept whatever comes of it. -/
def loadWith {α : Type} (reader : Json → Loader α) (bs : ByteArray) (compressed : Bool) (c : TypeContext) :
    Except LoadFault α × TypeContext :=
  match (if compressed then (Gzip.decompress bs).mapError .compression else .ok bs) with
  | .error f => (.error f, c)
  | .ok bs => match jsonOfBytes bs with
    | .error f => (.error f, c)
    | .ok j =>
      let (answer, c) := reader j c
      (answer.mapError .wire, c)

def loads (bs : ByteArray) (compressed : Bool) (c : TypeContext) : Except LoadFault Attr × TypeContext :=
  loadWith read bs compressed c

def loadBlock (text : String) (c : TypeContext) : Except LoadFault Block × TypeContext :=
  loadWith readBlockValue text.toUTF8 false c

end Wire

end GateAsm
