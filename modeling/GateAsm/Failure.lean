import GateAsm.Log.Logging
import GateAsm.Operation.Build
import GateAsm.Operation.Fault
import GateAsm.Parser.Fault
import GateAsm.Token.Lexer
import GateAsm.Ty.Owned
import GateAsm.Wire.Bytes

/-!
# Failures

Every part of the library has causes of failure of its own. A `Failure` is what they have in common: a
parse error as it is, and for the others their kind and their wording, if they have one.
-/

namespace GateAsm

inductive FailureKind
  | construction
  | verification
  | configuration
  | badValue
  | wrongKind
  | noComponent
  | missing
  | outOfRange
  | overflow
  | exhausted
  | notJson
  | notText
  | notCompressed
  | cutShort
  | badCompression
  | fileNotFound
  | isDirectory
  | notDirectory
  | accessDenied
  | systemRefused
  | badPadding
  deriving DecidableEq, Repr

inductive Failure
  | parse (e : ParseError)
  | other (kind : FailureKind) (message : Option String)
  deriving Repr

instance : Inhabited Failure := ⟨.other .badValue none⟩

class FailureCause (ε : Type) where
  toFailure : ε → Failure

export FailureCause (toFailure)

namespace Failure

def saying (kind : FailureKind) (message : String) : Failure := .other kind (some message)

def silent (kind : FailureKind) : Failure := .other kind none

def noEntry (key : String) : Failure := .saying .missing key

def message? : Failure → Option String
  | parse e => some s!"{e.location.text}: {e.message}"
  | other _ message => message

end Failure

instance : FailureCause Failure := ⟨id⟩

instance : FailureCause BlockFault where
  toFailure
    | .unknownName name => .saying .missing (BlockFault.unknownName name).message
    | .missingOperand => .silent .noComponent
    | .notKey => .silent .wrongKind
    | f => .saying .badValue f.message

instance : FailureCause StrayCharacter := ⟨fun s => .parse ⟨.unexpectedCharacter s.char, s.location⟩⟩

instance : FailureCause Mismatch where
  toFailure
    | .wrongKind => .silent .wrongKind
    | .noComponent => .silent .noComponent
    | .badValue => .silent .badValue
    | .overflow => .silent .overflow
    | .outOfRange => .silent .outOfRange
    | .exhausted => .silent .exhausted
    | .missing key => .noEntry key

instance : FailureCause LiteralFault where
  toFailure
    | .nonFinite a => .saying .badValue (LiteralFault.nonFinite a).message
    | .noLiteral a => .saying .wrongKind (LiteralFault.noLiteral a).message
    | .integerTooLong => .silent .badValue

instance : FailureCause OperationError where
  toFailure
    | .record f => .saying .verification f.message
    | .literal f => toFailure f
    | .unprintable opcode => .saying .badValue s!"no instruction kind registered for '{opcode}'"
    | .mismatch m => toFailure m

instance : FailureCause ParseFailure where
  toFailure
    | .error e => .parse e
    | .integerTooLong | .lengthMismatch => .silent .badValue
    | .segmentTooLarge => .silent .overflow
    | .block f => toFailure f
    | .type e => toFailure e

instance : FailureCause BuildError where
  toFailure
    | .fault f => .saying .construction f.message
    | .mismatch m => toFailure m
    | .block f => toFailure f

instance : FailureCause AccessorFault where
  toFailure
    | .outOfRange n =>
      if FewDigits n then .saying .construction (AccessorFault.outOfRange n).message else .silent .badValue
    | f => .saying .construction f.message

instance : FailureCause TypeFault := ⟨fun f => .saying .construction f.message⟩

instance : FailureCause RequestFault where
  toFailure
    | .abstractClass | .notContext => .silent .noComponent
    | .noText c => .saying .wrongKind s!"unrecognized type in printer: {c.name}"
    | .parameterCount | .notComparable => .silent .wrongKind
    | .badParameters => .silent .badValue
    | .unshown m => toFailure m
    | .type f => toFailure f

instance : FailureCause KindFault := ⟨fun f => .saying .construction f.message⟩

instance : FailureCause RegistryFault := ⟨fun f => .saying .badValue f.message⟩

instance : FailureCause Wire.ClassFault := ⟨fun f => .saying .badValue f.message⟩

instance : FailureCause FileFault where
  toFailure
    | .notFound => .silent .fileNotFound
    | .isDirectory => .silent .isDirectory
    | .notDirectory => .silent .notDirectory
    | .denied => .silent .accessDenied
    | .nameTooLong => .silent .systemRefused
    | .noPath => .silent .badValue
    | .notText => .silent .notText

instance : FailureCause LogFault where
  toFailure
    | .unknownLevel => .silent .noComponent
    | .badPattern | .patternForLevel => .silent .badValue
    | .stylesForLevel => .silent .wrongKind
    | .file f => toFailure f

instance : FailureCause SerialFault where
  toFailure
    | .integerTooLong => .silent .badValue
    | f => .other .wrongKind f.message?

instance : FailureCause WireFault where
  toFailure
    | .missing key => .noEntry key
    | .type f => toFailure f
    | .accessor f => toFailure f
    | .block f => toFailure f
    | .mismatch m => toFailure m
    | .badPadding => .silent .badPadding
    | f => .other .badValue f.message?

instance : FailureCause LoadFault where
  toFailure
    | .compression .notGzip => .silent .notCompressed
    | .compression .cutShort => .silent .cutShort
    | .compression .broken => .silent .badCompression
    | .notText => .silent .notText
    | .json .malformed => .silent .notJson
    | .json .integerTooLong => .silent .badValue
    | .wire f => toFailure f

end GateAsm
